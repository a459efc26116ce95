import Mathlib.Data.List.Basic
import Saddle.Text.Lines

/-!
# Which lines a file has

The lines of a file are gathered from its end, one byte at a time. What they are is said
here without that detour, and by characters: every text without a newline may be a line,
and is encoded with one of the two ends of a line after it. Only the last may go without
an end, if it is not empty. A text whose own last character is a carriage return does not
stand in front of a bare newline, where that character would count as part of the end.

That bytes can be searched for the ends of lines is due to the encoding: the bytes of a
character are all above those of ASCII, or the character is of ASCII and its only byte is
its number.
-/

namespace Saddle.Text

/-- The bytes of a text. -/
def encode (text : List Char) : List UInt8 := text.flatMap String.utf8EncodeChar

/-- The bytes are those of the lines, in this order, each with an end but perhaps the last. -/
inductive Encodes : List UInt8 → List (List Char) → Prop
  | nil : Encodes [] []
  | last {text : List Char} (hne : text ≠ []) (htext : '\n' ∉ text) : Encodes (encode text) [text]
  | newline {text : List Char} {bytes : List UInt8} {texts : List (List Char)}
      (htext : '\n' ∉ text) (hreturn : text.getLast? ≠ some '\r') (hrest : Encodes bytes texts) :
      Encodes (encode text ++ newline :: bytes) (text :: texts)
  | returned {text : List Char} {bytes : List UInt8} {texts : List (List Char)}
      (htext : '\n' ∉ text) (hrest : Encodes bytes texts) :
      Encodes (encode text ++ carriageReturn :: newline :: bytes) (text :: texts)

/-! ## Bytes of characters -/

section Characters

variable {c : Char} {b : UInt8} {text : List Char}

theorem toNat_eq_of_mem_utf8EncodeChar (h : b ∈ String.utf8EncodeChar c) (hb : b.toNat < 128) :
    c.toNat = b.toNat := by
  rw [Char.toNat]
  simp only [String.utf8EncodeChar] at h
  split at h
  · next hc =>
      have hlt : c.val.toNat < 256 := by omega
      rw [List.mem_singleton.mp h, UInt8.toNat_ofNat_of_lt' hlt]
  · -- All bytes of a longer encoding are above those of ASCII.
    exfalso
    have hlarge : ∀ n : Nat, 128 ≤ n → n < 256 → b ≠ UInt8.ofNat n := by
      rintro n hn hn' rfl
      rw [UInt8.toNat_ofNat_of_lt' hn'] at hb
      omega
    split at h
    · simp only [List.mem_cons, List.not_mem_nil, or_false] at h
      rcases h with h | h <;> exact hlarge _ (by omega) (by omega) h
    · split at h
      · simp only [List.mem_cons, List.not_mem_nil, or_false] at h
        rcases h with h | h | h <;> exact hlarge _ (by omega) (by omega) h
      · simp only [List.mem_cons, List.not_mem_nil, or_false] at h
        rcases h with h | h | h | h <;> exact hlarge _ (by omega) (by omega) h

theorem encode_concat (text : List Char) (c : Char) :
    encode (text ++ [c]) = encode text ++ String.utf8EncodeChar c := by
  rw [encode, List.flatMap_append, List.flatMap_singleton, encode]

theorem encode_ne_nil (h : text ≠ []) : encode text ≠ [] := by
  cases text with
  | nil => exact absurd rfl h
  | cons c text => exact List.append_ne_nil_of_left_ne_nil String.utf8EncodeChar_ne_nil _

theorem newline_notMem_encode (h : '\n' ∉ text) : newline ∉ encode text := by
  intro hmem
  obtain ⟨c, hc, hbyte⟩ := List.mem_flatMap.mp hmem
  have hchar := toNat_eq_of_mem_utf8EncodeChar hbyte (by decide)
  obtain rfl : c = '\n' := Char.toNat_inj.mp hchar
  exact h hc

theorem getLast?_encode (h : text.getLast? ≠ some '\r') :
    (encode text).getLast? ≠ some carriageReturn := by
  intro hlast
  rcases List.eq_nil_or_concat text with rfl | ⟨init, c, rfl⟩
  · cases hlast
  · rw [List.concat_eq_append] at h hlast
    rw [encode_concat, List.getLast?_append_of_ne_nil _ String.utf8EncodeChar_ne_nil] at hlast
    have hchar := toNat_eq_of_mem_utf8EncodeChar (List.mem_of_getLast? hlast) (by decide)
    obtain rfl : c = '\r' := Char.toNat_inj.mp hchar
    exact h List.getLast?_concat

theorem fromUTF8?_encode (text : List Char) :
    String.fromUTF8? ⟨(encode text).toArray⟩ = some (String.ofList text) := by
  have hbytes : (⟨(encode text).toArray⟩ : ByteArray) = (String.ofList text).toByteArray := by
    rw [String.toByteArray_ofList]
    exact ByteArray.ext List.data_toByteArray.symm
  rw [hbytes, String.fromUTF8?, dif_pos (String.isValidUTF8 _)]
  rfl

end Characters

/-! ## Lines of bytes -/

section Gathering

variable {bytes : List UInt8} {rest : List (List UInt8)}

/-- Bytes without a newline among them belong to the line that they are in front of. -/
theorem foldr_add_of_notMem (h : newline ∉ bytes) (line : List UInt8) :
    bytes.foldr Lines.add ⟨false, line :: rest⟩ = ⟨false, (bytes ++ line) :: rest⟩ := by
  induction bytes with
  | nil => rfl
  | cons b bytes ih =>
      rw [List.mem_cons, not_or] at h
      rw [List.foldr_cons, ih h.2, Lines.add, if_neg (Ne.symm h.1), if_neg (by simp)]
      rfl

/-- In front of the end of the file they are the last line. -/
theorem lines_foldr_add_end (hne : bytes ≠ []) (h : newline ∉ bytes) :
    (bytes.foldr Lines.add {}).lines = [bytes] := by
  obtain ⟨init, b, rfl⟩ := (List.eq_nil_or_concat bytes).resolve_left hne
  rw [List.concat_eq_append, List.mem_append, not_or, List.mem_singleton] at h
  rw [List.concat_eq_append, List.foldr_append, List.foldr_cons, List.foldr_nil, Lines.add,
    if_neg (Ne.symm h.2), if_neg (by simp), foldr_add_of_notMem h.1]

/-- In front of a newline they are the line that it ends, up to a carriage return. -/
theorem lines_foldr_add_newline (h : newline ∉ bytes)
    (hreturn : bytes.getLast? ≠ some carriageReturn) :
    (bytes.foldr Lines.add ⟨true, [] :: rest⟩).lines = bytes :: rest := by
  rcases List.eq_nil_or_concat bytes with rfl | ⟨init, b, rfl⟩
  · rfl
  · -- Only the last byte can be taken for a part of the end.
    rw [List.concat_eq_append] at h hreturn ⊢
    rw [List.mem_append, not_or, List.mem_singleton] at h
    rw [List.getLast?_concat, ne_eq, Option.some.injEq] at hreturn
    rw [List.foldr_append, List.foldr_cons, List.foldr_nil, Lines.add, if_neg (Ne.symm h.2),
      if_neg fun hb => hreturn hb.1, foldr_add_of_notMem h.1]

/-- In front of both they are that line as they stand. -/
theorem lines_foldr_add_returned (h : newline ∉ bytes) :
    (bytes.foldr Lines.add ⟨false, [] :: rest⟩).lines = bytes :: rest := by
  rw [foldr_add_of_notMem h, List.append_nil]

end Gathering

/-! ## Lines of text -/

section Texts

variable {bytes : List UInt8} {texts : List (List Char)}

theorem Encodes.lines_foldr_add (h : Encodes bytes texts) :
    (bytes.foldr Lines.add {}).lines = texts.map encode := by
  induction h with
  | nil => rfl
  | last hne htext => exact lines_foldr_add_end (encode_ne_nil hne) (newline_notMem_encode htext)
  | newline htext hreturn _ ih =>
      rw [List.foldr_append, List.foldr_cons, List.map_cons, ← ih]
      exact lines_foldr_add_newline (newline_notMem_encode htext) (getLast?_encode hreturn)
  | returned htext _ ih =>
      rw [List.foldr_append, List.foldr_cons, List.foldr_cons, List.map_cons, ← ih]
      exact lines_foldr_add_returned (newline_notMem_encode htext)

/-- The lines of a file are the texts that were encoded. -/
theorem Encodes.lines_eq (h : Encodes bytes texts) :
    lines bytes = (texts.map String.ofList).map some := by
  rw [lines, h.lines_foldr_add, List.map_map, List.map_map]
  exact List.map_congr_left fun text _ => fromUTF8?_encode text

/-- Texts are the lines of a file if no newline is among them. -/
theorem exists_encodes (h : ∀ text ∈ texts, '\n' ∉ text) : ∃ bytes, Encodes bytes texts := by
  induction texts with
  | nil => exact ⟨[], .nil⟩
  | cons text texts ih =>
      rw [List.forall_mem_cons] at h
      obtain ⟨bytes, hbytes⟩ := ih h.2
      exact ⟨_, .returned h.1 hbytes⟩

end Texts

end Saddle.Text
