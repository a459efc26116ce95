import Saddle.Proofs.Market.Format

/-!
# The files that are read

The reader goes through a file line after line and gives up at the first that does not
fit. It does so in three parts, as the format has it, and each of its steps comes here
with the part of the format that it accepts: no more, since nothing is left unchecked,
and no less, since a check refuses only what the format excludes. The reader never takes
back what it has read; hence the steps make up the whole, and the files that are read are
those of the format.

Only one thing is asked for beside the format: that there is room for the column
pointers. It is checked as soon as their number is known, and stands as a condition of
its own, whatever the machine answers.
-/

namespace Saddle.Market

open Text Decimal

/-! ## Lines -/

section Lines

variable {text : List Char} {words : List (List Char)} {number : Nat}

theorem cleanLine_eq_nil : cleanLine text = [] ↔ Idle text := by
  rw [cleanLine, Idle, ← head?_trim, ← trim_eq_nil]
  split
  · next h => exact iff_of_true rfl (Or.inr h)
  · next h => exact ⟨Or.inl, fun h' => h'.resolve_right h⟩

theorem spaced_cleanLine (h : ¬ Idle text) : Spaced words (cleanLine text) ↔ Spaced words text := by
  have hclean : cleanLine text = trim text := by
    rw [cleanLine, if_neg fun hhead => h (Or.inr (head?_trim text ▸ hhead))]
  rw [hclean, ← words_eq_iff, ← words_eq_iff, words_trim]

theorem measures_cleanLine (h : ¬ Idle text) {size : Size} :
    Measures (cleanLine text) size ↔ Measures text size := by
  simp only [Measures, spaced_cleanLine h]

theorem lists_cleanLine (h : ¬ Idle text) {field : Field} {size : Size} {c : Cell Float} :
    Lists field size (cleanLine text) c ↔ Lists field size text c := by
  simp only [Lists, spaced_cleanLine h]

/-- Lines of text, numbered from the given number on. -/
def numberedFrom (number : Nat) (texts : List (List Char)) : List Line :=
  (texts.zipIdx number).map fun (text, number) => ⟨number, some text⟩

theorem numbered_map_some (lines : List String) :
    numbered (lines.map some) = numberedFrom 1 (lines.map String.toList) := by
  simp only [numbered, numberedFrom, List.zipIdx_map, List.map_map]
  rfl

theorem numberedFrom_cons (text : List Char) (texts : List (List Char)) :
    numberedFrom number (text :: texts) =
      ⟨number, some text⟩ :: numberedFrom (number + 1) texts := rfl

/-- Some line is the first that holds something, or none does. -/
theorem exists_first (clean : List Char → List Char) (texts : List (List Char)) :
    (∀ t ∈ texts, clean t = []) ∨ ∃ front text rest, texts = front ++ text :: rest ∧
      (∀ t ∈ front, clean t = []) ∧ clean text ≠ [] := by
  cases hfind : texts.find? (clean · ≠ []) with
  | none =>
      left
      simpa [List.find?_eq_none] using hfind
  | some text =>
      right
      obtain ⟨htext, front, rest, htexts, hfront⟩ := List.find?_eq_some_iff_append.mp hfind
      exact ⟨front, text, rest, htexts, by simpa using hfront, by simpa using htext⟩

theorem seek_append {clean : List Char → List Char} {front : List (List Char)}
    (hfront : ∀ t ∈ front, clean t = []) (texts : List (List Char)) :
    seek clean (numberedFrom number (front ++ texts)) =
      seek clean (numberedFrom (number + front.length) texts) := by
  induction front generalizing number with
  | nil => rfl
  | cons t front ih =>
      rw [List.forall_mem_cons] at hfront
      rw [List.cons_append, numberedFrom_cons, seek]
      simp only [Line.read, bind, Except.bind]
      rw [if_pos hfront.1, ih hfront.2, List.length_cons, Nat.add_assoc, Nat.add_comm 1]

theorem seek_cons {clean : List Char → List Char} (htext : clean text ≠ [])
    (rest : List (List Char)) : seek clean (numberedFrom number (text :: rest)) =
      .ok (some ⟨number, clean text, numberedFrom (number + 1) rest⟩) := by
  rw [numberedFrom_cons, seek]
  simp only [Line.read, bind, Except.bind]
  rw [if_neg htext]
  rfl

/-- What is found is the first line that holds something, and the lines after it are left. -/
theorem seek_eq_ok {clean : List Char → List Char} {texts : List (List Char)} {content : Content} :
    seek clean (numberedFrom number texts) = .ok (some content) ↔
      ∃ front text rest, texts = front ++ text :: rest ∧ (∀ t ∈ front, clean t = []) ∧
        clean text ≠ [] ∧ content = ⟨number + front.length, clean text,
          numberedFrom (number + front.length + 1) rest⟩ := by
  constructor
  · intro h
    rcases exists_first clean texts with hall | ⟨front, text, rest, rfl, hfront, htext⟩
    · rw [← List.append_nil texts, seek_append hall] at h
      cases h
    · rw [seek_append hfront, seek_cons htext] at h
      exact ⟨front, text, rest, rfl, hfront, htext, (Option.some.inj (Except.ok.inj h)).symm⟩
  · rintro ⟨front, text, rest, rfl, hfront, htext, rfl⟩
    rw [seek_append hfront, seek_cons htext]

theorem require_eq_ok {clean : List Char → List Char} {missing : Error} {lines : List Line}
    {content : Content} :
    require clean missing lines = .ok content ↔ seek clean lines = .ok (some content) := by
  rw [require, bind_eq_ok]
  constructor
  · rintro ⟨found, hseek, h⟩
    cases found with
    | none => cases h
    | some c => exact Except.ok.inj h ▸ hseek
  · exact fun h => ⟨some content, h, rfl⟩

end Lines

/-! ## The banner -/

section Banner

variable {text word : List Char} {number : Nat} {banner : Banner}

theorem Announces.ne_nil (h : Announces text banner) : text ≠ [] := by
  rintro rfl
  obtain ⟨_, _, _, _, hspaced, -⟩ := h
  exact absurd hspaced.words_eq (by rintro ⟨⟩)

theorem eq_of_isWord {expected expected' : String} (h : isWord word expected = true)
    (h' : isWord word expected' = true) : expected.toList = expected'.toList := by
  rw [isWord, beq_iff_eq] at h h'
  exact h.symm.trans h'

/-- A choice between two words, of which no word of the banner can be both. -/
theorem choice_eq_ok {β : Type} {expected expected' : String}
    (hne : expected.toList ≠ expected'.toList) {x x' y : β} {e : KindError} :
    (if isWord word expected then .ok x else if isWord word expected' then .ok x' else .error e) =
        Except.ok y ↔
      x = y ∧ isWord word expected = true ∨ x' = y ∧ isWord word expected' = true := by
  by_cases h : isWord word expected = true
  · have h' : ¬ isWord word expected' = true := fun h' => hne (eq_of_isWord h h')
    simp [h, h']
  · by_cases h' : isWord word expected' = true <;> simp [h, h']

theorem readField_eq_ok {field : Field} :
    readField word = .ok field ↔ isWord word field.word = true := by
  rw [readField, choice_eq_ok (by decide)]
  cases field <;> simp [Field.word]

theorem readSymmetry_eq_ok {symmetry : Symmetry} :
    readSymmetry word = .ok symmetry ↔ isWord word symmetry.word = true := by
  rw [readSymmetry, choice_eq_ok (by decide)]
  cases symmetry <;> simp [Symmetry.word]

theorem readKind_eq_ok {object format field symmetry : List Char} :
    readKind object format field symmetry = .ok banner ↔
      isWord object "matrix" = true ∧ isWord format "coordinate" = true ∧
        isWord field banner.field.word = true ∧ isWord symmetry banner.symmetry.word = true := by
  have hread : (do return ⟨← readField field, ← readSymmetry symmetry⟩ : Except KindError Banner) =
        .ok banner ↔
      readField field = .ok banner.field ∧ readSymmetry symmetry = .ok banner.symmetry := by
    obtain ⟨f, s⟩ := banner
    cases readField field <;> cases readSymmetry symmetry <;>
      simp [bind, Except.bind, pure, Except.pure]
  rw [← readField_eq_ok, ← readSymmetry_eq_ok, ← hread, readKind]
  cases isWord object "matrix" <;> cases isWord format "coordinate" <;> simp [bind, Except.bind]

theorem readBanner_eq_ok : readBanner number text = .ok banner ↔ Announces text banner := by
  simp only [Announces, ← words_eq_iff]
  rw [readBanner]
  split
  · next mark object format field symmetry hwords =>
      by_cases hmark : mark = "%%MatrixMarket".toList
      · rw [if_neg (not_not_intro hmark), mapError_eq_ok, readKind_eq_ok]
        constructor
        · exact fun h => ⟨object, format, field, symmetry, hmark ▸ hwords, h⟩
        · rintro ⟨_, _, _, _, hwords', h⟩
          obtain ⟨-, rfl, rfl, rfl, rfl⟩ := by simpa [hwords] using hwords'
          exact h
      · rw [if_pos hmark]
        refine iff_of_false (fun h => nomatch h) ?_
        rintro ⟨_, _, _, _, hwords', -⟩
        exact hmark (List.cons.inj (hwords.symm.trans hwords')).1
  · next hwords =>
      refine iff_of_false (fun h => nomatch h) ?_
      rintro ⟨object, format, field, symmetry, h, -⟩
      exact hwords _ _ _ _ _ h

end Banner

/-! ## The size -/

section Size

variable {allocates : Nat → Bool} {text word : List Char} {number : Nat} {symmetry : Symmetry}
  {size : Size}

/-- What is known of the size once its line is accepted. -/
structure Sized (symmetry : Symmetry) (size : Size) : Prop where
  nrows_le : size.nrows ≤ maxSize
  ncols_le : size.ncols ≤ maxSize
  square : symmetry = .symmetric → size.nrows = size.ncols

theorem Measures.sized (h : Measures text size)
    (hsquare : symmetry = .symmetric → size.nrows = size.ncols) : Sized symmetry size := by
  obtain ⟨_, _, _, -, hnrows, hncols, -⟩ := h
  exact ⟨hnrows.2, hncols.2, hsquare⟩

theorem checkSize_eq_ok : checkSize allocates number symmetry size = .ok () ↔
    (symmetry = .symmetric → size.nrows = size.ncols) ∧ size.ncols + 1 ≤ maxSize ∧
      checkRoom allocates (size.ncols + 1) = .ok () := by
  rw [checkSize]
  by_cases hsquare : symmetry = .symmetric ∧ size.nrows ≠ size.ncols
  · rw [if_pos hsquare]
    exact iff_of_false (fun h => nomatch h) fun h => hsquare.2 (h.1 hsquare.1)
  rw [if_neg hsquare]
  have hsquare' : symmetry = .symmetric → size.nrows = size.ncols := by simpa using hsquare
  rw [eq_true hsquare', true_and]
  by_cases hpointers : maxSize < size.ncols + 1
  · rw [if_pos hpointers]
    exact iff_of_false (fun h => nomatch h) fun h => absurd hpointers (Nat.not_lt.mpr h.1)
  · rw [if_neg hpointers]
    exact mapError_eq_ok.trans (and_iff_right (Nat.not_lt.mp hpointers)).symm

theorem readSize_eq_ok : readSize allocates number symmetry text = .ok size ↔
    Measures text size ∧ (symmetry = .symmetric → size.nrows = size.ncols) ∧
      size.ncols + 1 ≤ maxSize ∧ checkRoom allocates (size.ncols + 1) = .ok () := by
  simp only [Measures, ← words_eq_iff]
  rw [readSize]
  split
  · next nrows ncols nnz hwords =>
      simp only [bind_eq_ok, readDimension, mapError_eq_ok, readNat_eq_ok]
      constructor
      · rintro ⟨r, hr, c, hc, n, hn, ⟨⟩, hcheck, heq⟩
        obtain rfl := Except.ok.inj heq
        exact ⟨⟨nrows, ncols, nnz, hwords, hr, hc, hn⟩, checkSize_eq_ok.mp hcheck⟩
      · rintro ⟨⟨_, _, _, hwords', hr, hc, hn⟩, hcheck⟩
        obtain ⟨rfl, rfl, rfl⟩ := by simpa [hwords] using hwords'
        exact ⟨_, hr, _, hc, _, hn, (), checkSize_eq_ok.mpr hcheck, rfl⟩
  · next hwords =>
      refine iff_of_false (fun h => nomatch h) ?_
      rintro ⟨⟨nrows, ncols, nnz, h, -⟩, -⟩
      exact hwords _ _ _ h

end Size

/-! ## The entries -/

section Entries

variable {field : Field} {banner : Banner} {size : Size} {text word : List Char} {number : Nat}
  {c : Cell Float}

theorem readIndex_eq_ok {index : Nat} :
    readIndex word = .ok index ↔ Denotes word (index + 1) ∧ index + 1 ≤ maxSize := by
  rw [readIndex, bind_eq_ok, ← readNat_eq_ok]
  constructor
  · rintro ⟨n, hn, h⟩
    rw [mapError_eq_ok] at hn
    cases n with
    | zero => cases h
    | succ n => exact Except.ok.inj h ▸ hn
  · exact fun h => ⟨index + 1, mapError_eq_ok.mpr h, rfl⟩

theorem readEntry_eq_ok {symmetry : Symmetry} (h : Sized symmetry size) :
    readEntry field text = .ok c ∧ c.row < size.nrows ∧ c.column < size.ncols ↔
      Lists field size text c := by
  -- An index inside the matrix is in the range of sizes, as the size is.
  have hnrows := h.nrows_le
  have hncols := h.ncols_le
  simp only [Lists, ← words_eq_iff]
  rw [readEntry]
  split
  · next row column value hwords =>
      simp only [bind_eq_ok, readIndex_eq_ok]
      constructor
      · rintro ⟨⟨r, hr, j, hj, v, hv, heq⟩, hrow, hcolumn⟩
        obtain rfl := Except.ok.inj heq
        exact ⟨row, column, value, hwords, ⟨hr.1, hrow⟩, ⟨hj.1, hcolumn⟩, hv⟩
      · rintro ⟨_, _, _, hwords', ⟨hr, hrow⟩, ⟨hj, hcolumn⟩, hv⟩
        obtain ⟨rfl, rfl, rfl⟩ := by simpa [hwords] using hwords'
        exact ⟨⟨_, ⟨hr, by omega⟩, _, ⟨hj, by omega⟩, _, hv, rfl⟩, hrow, hcolumn⟩
  · next hwords =>
      refine iff_of_false (fun h => nomatch h.1) ?_
      rintro ⟨_, _, _, h, -⟩
      exact hwords _ _ _ h

/-- The entries that have been collected for a matrix. -/
def collected (size : Size) (cells : List (Cell Float)) : Triplets Float :=
  ⟨size.nrows, size.ncols, cells.toArray⟩

/-- Where an entry is stored, it is inside the matrix if it was so before. -/
theorem inside_place {symmetry : Symmetry}
    (hsquare : symmetry = .symmetric → size.nrows = size.ncols) :
    (symmetry.place c).column < size.ncols ∧ (symmetry.place c).row < size.nrows ↔
      c.row < size.nrows ∧ c.column < size.ncols := by
  cases symmetry with
  | general => exact and_comm
  | symmetric =>
      have hsquare := hsquare rfl
      simp only [Symmetry.place]
      omega

theorem push_collected {cells : List (Cell Float)} {r : Triplets Float × Nat} :
    (collected size cells).push c.column c.row c.value = .ok r ↔
      (c.column < size.ncols ∧ c.row < size.nrows) ∧
        r = (collected size (cells ++ [c]), cells.length) := by
  rw [Triplets.push, show (collected size cells).ncols = size.ncols from rfl,
    show (collected size cells).nrows = size.nrows from rfl]
  by_cases hcolumn : size.ncols ≤ c.column
  · rw [if_pos hcolumn]
    exact iff_of_false (by rintro ⟨⟩) fun h => by omega
  rw [if_neg hcolumn]
  by_cases hrow : size.nrows ≤ c.row
  · rw [if_pos hrow]
    exact iff_of_false (by rintro ⟨⟩) fun h => by omega
  rw [if_neg hrow, and_iff_right (by omega), Except.ok.injEq, eq_comm]
  simp [collected]

theorem addEntry_eq_ok (hsized : Sized banner.symmetry size) {cells : List (Cell Float)}
    {t : Triplets Float} :
    addEntry banner size number text (collected size cells) = .ok t ↔
      cells.length < size.nnz ∧ ∃ c, Lists banner.field size text c ∧
        t = collected size (cells ++ [banner.symmetry.place c]) := by
  have hsize : (collected size cells).size = cells.length := by simp [collected, Triplets.size]
  rw [addEntry, hsize]
  by_cases hexcess : size.nnz ≤ cells.length
  · rw [if_pos hexcess]
    exact iff_of_false (fun h => nomatch h) fun h => by omega
  rw [if_neg hexcess, and_iff_right (by omega)]
  simp only [← readEntry_eq_ok hsized, ← inside_place hsized.square]
  constructor
  · intro h
    rw [bind_eq_ok] at h
    obtain ⟨d, hd, h⟩ := h
    rw [bind_eq_ok] at h
    obtain ⟨r, hr, h⟩ := h
    rw [mapError_eq_ok, push_collected] at hr
    obtain ⟨hinside, rfl⟩ := hr
    cases hread : readEntry banner.field text with
    | error e =>
        rw [hread] at hd
        cases hd
    | ok c =>
        rw [hread] at hd
        obtain rfl := Except.ok.inj hd
        exact ⟨c, ⟨rfl, hinside⟩, (Except.ok.inj h).symm⟩
  · rintro ⟨c, ⟨hread, hinside⟩, rfl⟩
    rw [hread, bind_eq_ok]
    refine ⟨_, rfl, ?_⟩
    rw [bind_eq_ok]
    exact ⟨_, mapError_eq_ok.mpr (push_collected.mpr ⟨hinside, rfl⟩), rfl⟩

section Step

variable {texts : List (List Char)} {entries : List (Cell Float)} {t : Triplets Float}

theorem body_idle (htext : Idle text) :
    Body field size (text :: texts) entries ↔ Body field size texts entries := by
  refine ⟨fun h => ?_, fun h => .idle htext h⟩
  cases h with
  | idle _ hrest => exact hrest
  | entry hnot => exact absurd htext hnot

theorem body_entry (htext : ¬ Idle text) : Body field size (text :: texts) entries ↔
    ∃ c rest, entries = c :: rest ∧ Lists field size text c ∧ Body field size texts rest := by
  constructor
  · intro h
    cases h with
    | idle hidle => exact absurd hidle htext
    | entry _ hc hrest => exact ⟨_, _, rfl, hc, hrest⟩
  · rintro ⟨c, rest, rfl, hc, hrest⟩
    exact .entry htext hc hrest

theorem addEntries_cons : addEntries banner size (numberedFrom number (text :: texts)) t =
    if cleanLine text = [] then addEntries banner size (numberedFrom (number + 1) texts) t
    else
      addEntry banner size number (cleanLine text) t >>=
        addEntries banner size (numberedFrom (number + 1) texts) := rfl

/-- The lines that list entries are those that are read, as long as there are not more of them
than announced. -/
theorem addEntries_eq_ok (hsized : Sized banner.symmetry size) {cells : List (Cell Float)}
    (hcells : cells.length ≤ size.nnz) :
    addEntries banner size (numberedFrom number texts) (collected size cells) = .ok t ↔
      ∃ entries, Body banner.field size texts entries ∧
        cells.length + entries.length ≤ size.nnz ∧
        t = collected size (cells ++ entries.map banner.symmetry.place) := by
  induction texts generalizing number cells with
  | nil =>
      rw [numberedFrom, List.zipIdx_nil, List.map_nil, addEntries, Except.ok.injEq]
      constructor
      · rintro rfl
        exact ⟨[], .nil, hcells, by rw [List.map_nil, List.append_nil]⟩
      · rintro ⟨entries, ⟨⟩, -, rfl⟩
        rw [List.map_nil, List.append_nil]
  | cons text texts ih =>
      rw [addEntries_cons]
      by_cases htext : Idle text
      · rw [if_pos (cleanLine_eq_nil.mpr htext), ih hcells]
        simp only [body_idle htext]
      -- One more entry has been collected when the rest of the lines is read.
      rw [if_neg (mt cleanLine_eq_nil.mp htext), bind_eq_ok]
      simp only [addEntry_eq_ok hsized, lists_cleanLine htext, body_entry htext]
      constructor
      · rintro ⟨_, ⟨hlt, c, hc, rfl⟩, h⟩
        obtain ⟨rest, hrest, hle, rfl⟩ := (ih (by rw [List.length_append]; exact hlt)).mp h
        rw [List.length_append, Nat.add_assoc, Nat.add_comm [_].length] at hle
        exact ⟨c :: rest, ⟨c, rest, rfl, hc, hrest⟩, hle, by simp⟩
      · rintro ⟨_, ⟨c, rest, rfl, hc, hrest⟩, hle, rfl⟩
        rw [List.length_cons, Nat.add_comm rest.length, ← Nat.add_assoc] at hle
        have hlt : cells.length < size.nnz := by omega
        refine ⟨_, ⟨hlt, c, hc, rfl⟩, (ih (by rw [List.length_append]; exact hlt)).mpr ?_⟩
        rw [List.length_append]
        exact ⟨rest, hrest, hle, by simp⟩

end Step

end Entries

/-! ## The file -/

section File

variable {allocates : Nat → Bool} {d : Document} {m : Csc Float}

theorem describes_iff : Describes d m ↔
    m.nrows = d.size.nrows ∧ m.ncols = d.size.ncols ∧ Triplets.Sums d.cells m :=
  ⟨fun h => ⟨h.nrows_eq, h.ncols_eq, Csc.check_eq_ok.mp h.check, h.places, h.value⟩,
    fun ⟨hnrows, hncols, h⟩ => ⟨hnrows, hncols, Csc.check_eq_ok.mpr h.valid, h.places, h.value⟩⟩

theorem Body.inside {field : Field} {size : Size} {texts : List (List Char)}
    {entries : List (Cell Float)} (h : Body field size texts entries) :
    ∀ c ∈ entries, c.row < size.nrows ∧ c.column < size.ncols := by
  induction h with
  | nil => exact fun _ h => nomatch h
  | idle _ _ ih => exact ih
  | entry _ hentry _ ih =>
      obtain ⟨_, _, _, -, hrow, hcolumn, -⟩ := hentry
      exact List.forall_mem_cons.mpr ⟨⟨hrow.2, hcolumn.2⟩, ih⟩

/-- The entries of a document make up one matrix, the one that it describes. -/
theorem build_collected
    (hinside : ∀ c ∈ d.entries, c.row < d.size.nrows ∧ c.column < d.size.ncols)
    (hsquare : d.banner.symmetry = .symmetric → d.size.nrows = d.size.ncols) :
    ∃ a slots, (collected d.size d.cells).build = some (a, slots) ∧ Describes d a := by
  have hin : ∀ c ∈ (collected d.size d.cells).entries.toList,
      c.column < d.size.ncols ∧ c.row < d.size.nrows := by
    intro c hc
    obtain ⟨e, he, rfl⟩ := List.mem_map.mp hc
    exact (inside_place hsquare).mpr (hinside e he)
  obtain ⟨a, slots, hbuild, hsize, hsums⟩ := Triplets.sums_build hin
  exact ⟨a, slots, hbuild, describes_iff.mpr ⟨hsize.1, hsize.2, hsums⟩⟩

theorem Describes.unique {m' : Csc Float} (h : Describes d m) (h' : Describes d m') : m = m' := by
  obtain ⟨hnrows, hncols, hsums⟩ := describes_iff.mp h
  obtain ⟨hnrows', hncols', hsums'⟩ := describes_iff.mp h'
  exact hsums.unique hsums' (hnrows.trans hnrows'.symm) (hncols.trans hncols'.symm)

theorem gather_eq_ok {texts : List (Option String)} {t : Triplets Float} :
    gather allocates texts = .ok t ↔
      ∃ first banner second size, require cleanBanner (.banner .missing) (numbered texts) =
          .ok first ∧
        readBanner first.number first.text = .ok banner ∧
        require cleanLine (.size .missing) first.rest = .ok second ∧
        readSize allocates second.number banner.symmetry second.text = .ok size ∧
        addEntries banner size second.rest (collected size []) = .ok t ∧ t.size = size.nnz := by
  have hlast : ∀ (size : Size) (t' : Triplets Float),
      (do if t'.size ≠ size.nnz then throw (.entryCount size.nnz t'.size)
          return t' : Except Error (Triplets Float)) = .ok t ↔ t.size = size.nnz ∧ t' = t := by
    intro size t'
    by_cases h : t'.size = size.nnz
    · rw [if_neg (not_not_intro h)]
      exact ⟨fun ht => Except.ok.inj ht ▸ ⟨h, rfl⟩, fun ht => congrArg Except.ok ht.2⟩
    · rw [if_pos h]
      exact iff_of_false (fun h => nomatch h) fun ht => h (ht.2 ▸ ht.1)
  rw [gather, bind_eq_ok]
  refine exists_congr fun first => ?_
  simp only [bind_eq_ok, mapError_eq_ok, hlast, exists_and_left, exists_eq_right_right]
  rfl

theorem readLines_eq_ok {texts : List (Option String)} :
    (readLines allocates texts).run = some (.ok m) ↔
      ∃ t slots, gather allocates texts = .ok t ∧ t.build = some (m, slots) := by
  rw [readLines, Checked.run_bind_eq_ok]
  refine exists_congr fun t => ?_
  rw [Checked.run_except, Option.some.injEq, exists_and_left]
  refine and_congr_right fun _ => ?_
  cases t.build with
  | none => exact iff_of_false (fun h => nomatch h) fun ⟨_, h⟩ => nomatch h
  | some r =>
      obtain ⟨a, slots⟩ := r
      simp [Except.map]

theorem readLines_eq_error {texts : List (Option String)} {e : Error} :
    (readLines allocates texts).run = some (.error e) ↔ gather allocates texts = .error e := by
  rw [readLines, Checked.run_bind_eq_error, Checked.run_except, Option.some.injEq]
  refine or_iff_left ?_
  rintro ⟨t, -, h⟩
  cases hbuild : t.build <;> rw [hbuild] at h <;> cases h

/-- What is gathered are the entries of the one document that the lines make up. -/
theorem gather_eq_ok_iff {lines : List String} {t : Triplets Float} :
    gather allocates (lines.map some) = .ok t ↔
      ∃ d, Says (lines.map String.toList) d ∧ checkRoom allocates (d.size.ncols + 1) = .ok () ∧
        t = collected d.size d.cells := by
  rw [gather_eq_ok, numbered_map_some]
  constructor
  · rintro ⟨first, banner, second, size, hfirst, hbanner, hsecond, hsize, hadd, hcount⟩
    obtain ⟨front, top, rest, hlines, hfront, -, rfl⟩ := seek_eq_ok.mp (require_eq_ok.mp hfirst)
    obtain ⟨middle, line, body, rfl, hmiddle, hline, rfl⟩ :=
      seek_eq_ok.mp (require_eq_ok.mp hsecond)
    rw [ne_eq, cleanLine_eq_nil] at hline
    simp only [cleanLine_eq_nil] at hmiddle
    obtain ⟨hmeasures, hsquare, hpointers, hroom⟩ := readSize_eq_ok.mp hsize
    rw [measures_cleanLine hline] at hmeasures
    obtain ⟨entries, hbody, -, rfl⟩ :=
      (addEntries_eq_ok (hmeasures.sized hsquare) (Nat.zero_le _)).mp hadd
    have hlength : entries.length = size.nnz := by
      simpa [collected, Triplets.size] using hcount
    refine ⟨⟨banner, size, entries⟩, ?_, hroom, rfl⟩
    rw [hlines]
    exact .intro hfront (readBanner_eq_ok.mp hbanner) hmiddle hline hmeasures hsquare hpointers
      hbody hlength
  · rintro ⟨d, hsays, hroom, rfl⟩
    generalize lines.map String.toList = texts at hsays ⊢
    obtain ⟨hfront, hbanner, hmiddle, hline, hmeasures, hsquare, hpointers, hbody, hcount⟩ := hsays
    simp only [← cleanLine_eq_nil] at hmiddle
    refine ⟨_, d.banner, _, d.size,
      require_eq_ok.mpr (seek_eq_ok.mpr ⟨_, _, _, rfl, hfront, hbanner.ne_nil, rfl⟩),
      readBanner_eq_ok.mpr hbanner,
      require_eq_ok.mpr (seek_eq_ok.mpr ⟨_, _, _, rfl, hmiddle, ?_, rfl⟩), ?_, ?_, ?_⟩
    · rwa [ne_eq, cleanLine_eq_nil]
    · exact readSize_eq_ok.mpr
        ⟨(measures_cleanLine hline).mpr hmeasures, hsquare, hpointers, hroom⟩
    · exact (addEntries_eq_ok (hmeasures.sized hsquare) (Nat.zero_le _)).mpr
        ⟨d.entries, hbody, by simp [hcount], rfl⟩
    · simp [collected, Triplets.size, Document.cells, hcount]

theorem Says.build {texts : List (List Char)} (h : Says texts d) :
    ∃ a slots, (collected d.size d.cells).build = some (a, slots) ∧ Describes d a := by
  obtain ⟨-, -, -, -, -, hsquare, -, hbody, -⟩ := h
  exact build_collected hbody.inside hsquare

/-- The files that are read are those of the format, and what is read is the matrix that they
describe. -/
theorem readLines_eq_ok_iff (allocates : Nat → Bool) (lines : List String) (m : Csc Float) :
    (readLines allocates (lines.map some)).run = some (.ok m) ↔
      ∃ d, Says (lines.map String.toList) d ∧ checkRoom allocates (d.size.ncols + 1) = .ok () ∧
        Describes d m := by
  rw [readLines_eq_ok]
  constructor
  · rintro ⟨t, slots, hgather, hbuild⟩
    obtain ⟨d, hsays, hroom, rfl⟩ := gather_eq_ok_iff.mp hgather
    obtain ⟨a, slots', hbuild', hdescribes⟩ := hsays.build
    obtain ⟨rfl, -⟩ := Prod.mk.inj (Option.some.inj (hbuild'.symm.trans hbuild))
    exact ⟨d, hsays, hroom, hdescribes⟩
  · rintro ⟨d, hsays, hroom, hdescribes⟩
    obtain ⟨a, slots, hbuild, hdescribes'⟩ := hsays.build
    obtain rfl := hdescribes'.unique hdescribes
    exact ⟨_, slots, gather_eq_ok_iff.mpr ⟨d, hsays, hroom, rfl⟩, hbuild⟩

/-- So are the files whose bytes give lines of text. -/
theorem read_eq_ok_iff (allocates : Nat → Bool) {bytes : List UInt8} {lines : List String}
    (hlines : Text.lines bytes = lines.map some) (m : Csc Float) :
    (read allocates bytes).run = some (.ok m) ↔
      ∃ d, Says (lines.map String.toList) d ∧ checkRoom allocates (d.size.ncols + 1) = .ok () ∧
        Describes d m := by
  rw [read, hlines, readLines_eq_ok_iff]

/-- A file that gives one entry twice, on either side of the diagonal. -/
def twisted : List String :=
  ["%%MatrixMarket matrix coordinate integer symmetric", "% both triangles", "2 2 3", "1 1 2", "",
    "2 1 +3", "1 2 4"]

/-- What it says. -/
def twistedDocument : Document where
  banner := ⟨.integer, .symmetric⟩
  size := ⟨2, 2, 3⟩
  entries := [⟨0, 0, nearestInt 2⟩, ⟨0, 1, nearestInt 3⟩, ⟨1, 0, nearestInt 4⟩]

theorem lists_integer {size : Size} {text row column value : List Char} {i j : Nat} {n : Int}
    (hwords : words text = [row, column, value]) (hrow : readNat row = .ok (i + 1))
    (hi : i < size.nrows) (hcolumn : readNat column = .ok (j + 1)) (hj : j < size.ncols)
    (hvalue : readInt value = .ok n) : Lists .integer size text ⟨j, i, nearestInt n⟩ :=
  ⟨row, column, value, words_eq_iff.mp hwords, ⟨(readNat_eq_ok.mp hrow).1, hi⟩,
    ⟨(readNat_eq_ok.mp hcolumn).1, hj⟩, by rw [Field.readValue, hvalue]; rfl⟩

theorem says_twisted : Says (twisted.map String.toList) twistedDocument := by
  have hfront : ∀ text ∈ ([] : List (List Char)), cleanBanner text = [] := by simp
  have hmiddle : ∀ text ∈ ["% both triangles".toList], Idle text := by
    simp only [List.forall_mem_singleton, ← cleanLine_eq_nil]
    decide +kernel
  have hline : ¬ Idle "2 2 3".toList := by
    rw [← cleanLine_eq_nil]
    decide +kernel
  have hentry : ∀ text ∈ ["1 1 2".toList, "2 1 +3".toList, "1 2 4".toList], ¬ Idle text := by
    simp only [← cleanLine_eq_nil]
    decide +kernel
  refine .intro hfront ⟨_, _, _, _, words_eq_iff.mp rfl, ?_⟩ hmiddle hline
    ⟨_, _, _, words_eq_iff.mp rfl, readNat_eq_ok.mp rfl, readNat_eq_ok.mp rfl,
      readNat_eq_ok.mp rfl⟩ (fun _ => rfl) (by decide +kernel) ?_ rfl
  · decide +kernel
  · simp only [List.forall_mem_cons] at hentry
    exact .entry hentry.1 (lists_integer rfl rfl (by decide) rfl (by decide) rfl)
      (.idle (Or.inl (by simp))
        (.entry hentry.2.1 (lists_integer rfl rfl (by decide) rfl (by decide) rfl)
          (.entry hentry.2.2.1 (lists_integer rfl rfl (by decide) rfl (by decide) rfl) .nil)))

/-- The matrix. -/
def twistedMatrix : Csc Float :=
  ⟨2, 2, #[0, 1, 2], #[0, 0], #[nearestInt 2, nearestInt 3 + nearestInt 4]⟩

theorem describes_twisted : Describes twistedDocument twistedMatrix := by
  have hcells : twistedMatrix.cellList =
      [⟨0, 0, nearestInt 2⟩, ⟨1, 0, nearestInt 3 + nearestInt 4⟩] := rfl
  refine ⟨rfl, rfl, rfl, fun p => ?_, ?_⟩
  · rw [hcells]
    simp [twistedDocument, Document.cells, Symmetry.place, Cell.place]
  · rw [hcells]
    simp only [List.forall_mem_cons]
    exact ⟨rfl, rfl, by simp⟩

theorem read_eq_ok_iff_twisted :
    (read (fun _ => true) ("\n".intercalate twisted).toUTF8.data.toList).run =
      some (.ok twistedMatrix) := by
  have hlines : Text.lines ("\n".intercalate twisted).toUTF8.data.toList = twisted.map some := by
    decide +kernel
  exact (read_eq_ok_iff _ hlines twistedMatrix).mpr
    ⟨twistedDocument, says_twisted, by decide +kernel, describes_twisted⟩

end File

end Saddle.Market
