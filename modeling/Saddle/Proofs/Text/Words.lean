import Mathlib.Data.List.DropRight
import Saddle.Text.Blank

/-!
# Which words a text has

The words of a text are gathered from its end, one character at a time. What they are
is said here without that detour: they stand in the text one after the other, none of
them empty and none with a blank in it, with blanks around them and at least one blank
between two of them. A text is taken apart like this in one way only.
-/

namespace Saddle.Text

/-- The words stand in the text, in this order, with nothing but blanks around them and between
them. -/
inductive Spaced : List (List Char) → List Char → Prop
  | blanks {text : List Char} (h : ∀ c ∈ text, isBlank c = true) : Spaced [] text
  | word {before word after : List Char} {words : List (List Char)}
      (hbefore : ∀ c ∈ before, isBlank c = true) (hne : word ≠ [])
      (hword : ∀ c ∈ word, isBlank c = false) (hafter : ∀ c ∈ after.head?, isBlank c = true)
      (hrest : Spaced words after) : Spaced (word :: words) (before ++ word ++ after)

section Words

variable {text word : List Char} {ws : List (List Char)} {c : Char}

theorem words_of_blank (hc : isBlank c = true) : words (c :: text) = words text := by
  rw [words, List.foldr_cons, Words.add, if_pos hc]
  rfl

theorem adjacent_foldr (text : List Char) :
    (text.foldr Words.add {}).adjacent = text.head?.any fun c => !isBlank c := by
  cases text with
  | nil => rfl
  | cons c text =>
      rw [List.foldr_cons, Words.add]
      by_cases hc : isBlank c = true
      · rw [if_pos hc]
        simp [hc]
      · rw [if_neg hc]
        split <;> simp [hc]

/-- In front of a blank or of the end a character is a word of its own. -/
theorem words_of_apart (hc : isBlank c = false) (htext : ∀ d ∈ text.head?, isBlank d = true) :
    words (c :: text) = [c] :: words text := by
  have hadjacent : (text.foldr Words.add {}).adjacent = false := by
    rw [adjacent_foldr]
    cases h : text.head? with
    | none => rfl
    | some d => simp [htext d h]
  rw [words, List.foldr_cons, Words.add, if_neg (by simp [hc]), hadjacent]
  rfl

/-- In front of a word it is the first character of that word. -/
theorem words_of_adjacent (hc : isBlank c = false) {d : Char} (hd : text.head? = some d)
    (hblank : isBlank d = false) (hwords : words text = word :: ws) :
    words (c :: text) = (c :: word) :: ws := by
  have hadjacent : (text.foldr Words.add {}).adjacent = true := by
    rw [adjacent_foldr, hd]
    simp [hblank]
  rw [words] at hwords
  rw [words, List.foldr_cons, Words.add, if_neg (by simp [hc]), hadjacent, hwords]

theorem Spaced.cons_blank (h : Spaced ws text) (hc : isBlank c = true) : Spaced ws (c :: text) := by
  cases h with
  | blanks h => exact .blanks (List.forall_mem_cons.mpr ⟨hc, h⟩)
  | word hbefore hne hword hafter hrest =>
      exact .word (List.forall_mem_cons.mpr ⟨hc, hbefore⟩) hne hword hafter hrest

/-- A text may start with a word. -/
theorem Spaced.first {after : List Char} (hne : word ≠ []) (hword : ∀ c ∈ word, isBlank c = false)
    (hafter : ∀ c ∈ after.head?, isBlank c = true) (hrest : Spaced ws after) :
    Spaced (word :: ws) (word ++ after) := by
  have hnil : ∀ c ∈ ([] : List Char), isBlank c = true := fun _ h => nomatch h
  exact .word hnil hne hword hafter hrest

/-- A character in front of a word makes it longer. -/
theorem Spaced.cons_adjacent (h : Spaced ws text) (hc : isBlank c = false) {d : Char}
    (hd : text.head? = some d) (hblank : isBlank d = false) :
    ∃ word rest, ws = word :: rest ∧ Spaced ((c :: word) :: rest) (c :: text) := by
  cases h with
  | blanks h =>
      rw [h d (List.mem_of_head? hd)] at hblank
      cases hblank
  | @word before word after rest hbefore hne hword hafter hrest =>
      cases before with
      | nil =>
          refine ⟨word, rest, rfl, ?_⟩
          exact .first (List.cons_ne_nil _ _) (List.forall_mem_cons.mpr ⟨hc, hword⟩) hafter hrest
      | cons b before =>
          obtain rfl : b = d := Option.some.inj hd
          rw [hbefore b List.mem_cons_self] at hblank
          cases hblank

theorem spaced_words (text : List Char) : Spaced (words text) text := by
  induction text with
  | nil => exact .blanks fun _ h => nomatch h
  | cons c text ih =>
      cases hc : isBlank c with
      | true =>
          rw [words_of_blank hc]
          exact ih.cons_blank hc
      | false =>
          -- The character behind it decides whether it is a word of its own.
          by_cases htext : ∀ d ∈ text.head?, isBlank d = true
          · rw [words_of_apart hc htext]
            have hword : ∀ e ∈ [c], isBlank e = false := by simpa using hc
            exact .first (List.cons_ne_nil _ _) hword htext ih
          · simp only [not_forall, Bool.not_eq_true] at htext
            obtain ⟨d, hd, hblank⟩ := htext
            obtain ⟨word, rest, hwords, hspaced⟩ := ih.cons_adjacent hc hd hblank
            rwa [words_of_adjacent hc hd hblank hwords]

theorem words_blank_append {before : List Char} (h : ∀ c ∈ before, isBlank c = true) :
    words (before ++ text) = words text := by
  induction before with
  | nil => rfl
  | cons c before ih =>
      rw [List.forall_mem_cons] at h
      rw [List.cons_append, words_of_blank h.1, ih h.2]

theorem words_word_append (hne : word ≠ []) (hword : ∀ c ∈ word, isBlank c = false)
    (htext : ∀ c ∈ text.head?, isBlank c = true) : words (word ++ text) = word :: words text := by
  induction word with
  | nil => exact absurd rfl hne
  | cons c word ih =>
      rw [List.forall_mem_cons] at hword
      cases word with
      | nil => exact words_of_apart hword.1 htext
      | cons d word =>
          have hd : isBlank d = false := hword.2 d List.mem_cons_self
          exact words_of_adjacent hword.1 rfl hd (ih (List.cons_ne_nil _ _) hword.2)

theorem Spaced.words_eq (h : Spaced ws text) : words text = ws := by
  induction h with
  | @blanks text h =>
      rw [← List.append_nil text, words_blank_append h]
      rfl
  | word hbefore hne hword hafter _ ih =>
      rw [List.append_assoc, words_blank_append hbefore, words_word_append hne hword hafter,
        ih]

/-- A text has the words that stand in it, and no others. -/
theorem words_eq_iff : words text = ws ↔ Spaced ws text :=
  ⟨fun h => h ▸ spaced_words text, Spaced.words_eq⟩

/-- What comes first in a text, apart from blanks, is its first word. -/
theorem Spaced.head?_dropWhile (h : Spaced (word :: ws) text) :
    (text.dropWhile isBlank).head? = word.head? := by
  cases h with
  | @word before _ after _ hbefore hne hword _ _ =>
      rw [List.append_assoc, List.dropWhile_append_of_pos hbefore]
      cases word with
      | nil => exact absurd rfl hne
      | cons c word =>
          have hc := hword c List.mem_cons_self
          rw [List.cons_append, List.dropWhile_cons_of_neg (by simp [hc])]
          rfl

/-- The characters make up a word. -/
structure IsWord (word : List Char) : Prop where
  ne_nil : word ≠ []
  not_blank : ∀ c ∈ word, isBlank c = false

theorem isBlank_of_isDigit (hc : c.isDigit = true) : isBlank c = false := by
  rw [Char.isDigit, Bool.and_eq_true, decide_eq_true_eq, decide_eq_true_eq] at hc
  have hfirst : 48 ≤ c.toNat := UInt32.le_iff_toNat_le.mp hc.1
  have hlast : c.toNat ≤ 57 := UInt32.le_iff_toNat_le.mp hc.2
  have hranges : ∀ range ∈ blankRanges, range.2 < 48 ∨ 57 < range.1 := by decide
  rw [isBlank, List.any_eq_false]
  intro range hrange hmem
  have := hranges range hrange
  rw [Bool.and_eq_true, decide_eq_true_eq, decide_eq_true_eq] at hmem
  omega

theorem isWord_toDigits (n : Nat) : IsWord (Nat.toDigits 10 n) where
  ne_nil := Nat.toDigits_ne_nil
  not_blank _ hc := isBlank_of_isDigit (Nat.isDigit_of_mem_toDigits (by decide) (by decide) hc)

/-- The words as a text, with a space in front of each. -/
def spread (words : List (List Char)) : List Char := words.flatMap (' ' :: ·)

theorem spaced_spread (h : ∀ word ∈ ws, IsWord word) : Spaced ws (spread ws) := by
  induction ws with
  | nil => exact .blanks fun _ h => nomatch h
  | cons word ws ih =>
      rw [List.forall_mem_cons] at h
      have hbefore : ∀ c ∈ [' '], isBlank c = true := List.forall_mem_singleton.mpr rfl
      have hafter : ∀ c ∈ (spread ws).head?, isBlank c = true := by
        cases ws with
        | nil => exact fun _ h => nomatch h
        | cons next ws => exact fun c hc => Option.some.inj hc ▸ rfl
      exact .word hbefore h.1.ne_nil h.1.not_blank hafter (ih h.2)

/-- Spaces are the only blanks of such a text. -/
theorem eq_space_of_mem_spread (h : ∀ word ∈ ws, IsWord word) (hc : c ∈ spread ws)
    (hblank : isBlank c = true) : c = ' ' := by
  obtain ⟨word, hword, hmem⟩ := List.mem_flatMap.mp hc
  rcases List.mem_cons.mp hmem with rfl | hmem
  · rfl
  · rw [(h word hword).not_blank c hmem] at hblank
    cases hblank

end Words

/-! ## Trimming -/

section Trim

variable {text : List Char} {ws : List (List Char)}

theorem Spaced.append_blank (h : Spaced ws text) {after : List Char}
    (hafter : ∀ c ∈ after, isBlank c = true) : Spaced ws (text ++ after) := by
  induction h with
  | blanks h => exact .blanks (List.forall_mem_append.mpr ⟨h, hafter⟩)
  | @word before word rest words hbefore hne hword hrest _ ih =>
      rw [List.append_assoc]
      refine .word hbefore hne hword (fun c hc => ?_) ih
      cases rest with
      | nil => exact hafter c (List.mem_of_head? hc)
      | cons d rest => exact hrest c hc

theorem trim_eq (text : List Char) : trim text = (text.dropWhile isBlank).rdropWhile isBlank := rfl

theorem words_trim (text : List Char) : words (trim text) = words text := by
  have hbefore : ∀ c ∈ text.takeWhile isBlank, isBlank c = true := fun _ => List.mem_takeWhile_imp
  have hafter : ∀ c ∈ (text.dropWhile isBlank).rtakeWhile isBlank, isBlank c = true :=
    fun _ => List.mem_rtakeWhile_imp
  have hspaced := (spaced_words (trim text)).append_blank hafter
  rw [trim_eq, List.rdropWhile_append_rtakeWhile] at hspaced
  conv_rhs => rw [← List.takeWhile_append_dropWhile (p := isBlank) (l := text)]
  rw [words_blank_append hbefore, hspaced.words_eq, trim_eq]

/-- Trimming leaves the first character that is not blank in front. -/
theorem head?_trim (text : List Char) : (trim text).head? = (text.dropWhile isBlank).head? := by
  have hfirst := List.head?_dropWhile_not isBlank text
  rw [trim_eq]
  cases htext : text.dropWhile isBlank with
  | nil => rfl
  | cons c rest =>
      rw [htext] at hfirst
      cases hrest : (c :: rest).rdropWhile isBlank with
      | nil => simp [List.rdropWhile_eq_nil_iff.mp hrest c List.mem_cons_self] at hfirst
      | cons d rest' =>
          obtain ⟨_, hprefix⟩ := hrest ▸ List.rdropWhile_prefix isBlank (l := c :: rest)
          rw [← hprefix]
          rfl

theorem trim_eq_nil : trim text = [] ↔ ∀ c ∈ text, isBlank c = true := by
  rw [← List.head?_eq_none_iff, head?_trim, List.head?_eq_none_iff, List.dropWhile_eq_nil_iff]

end Trim

end Saddle.Text
