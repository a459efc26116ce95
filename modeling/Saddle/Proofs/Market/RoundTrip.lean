import Saddle.Proofs.Market.Reader
import Saddle.Proofs.Text.Lines

/-!
# Matrices written and read back

A matrix can be written in many ways. The lines of its entries come in any order, with
comments and blank lines anywhere after the banner; words may be set apart by any blanks;
an index has leading zeros or not, and a value may be any word that reads as it does. In a
symmetric file, an entry off the diagonal may also be given by the one opposite to it.

None of this is left in the matrix that is read. Every entry is found again where it was
stored, the opposite ones put back above the diagonal, and as the places are all different
there is nothing to be added up: the values are the same to the last bit. So all files of
one matrix are read alike, as long as the matrix has the form that a reader can give it.
-/

namespace Saddle.Market

open Text Decimal

/-! ## Writing -/

/-- A stored entry is given as it is or, in a symmetric file, by the one opposite to it. -/
inductive Shown (symmetry : Symmetry) (c : Cell Float) : Cell Float → Prop
  | same : Shown symmetry c c
  | opposite (hsymmetric : symmetry = .symmetric) : Shown symmetry c ⟨c.row, c.column, c.value⟩

/-- The text gives the entry: its row and its column, counted from one, and its value. -/
def Gives (field : Field) (text : List Char) (c : Cell Float) : Prop :=
  ∃ row column value, Spaced [row, column, value] text ∧ Denotes row (c.row + 1) ∧
    Denotes column (c.column + 1) ∧ field.readValue value = .ok c.value

/-- The lines give the entries, one after the other, with comments and blank lines anywhere. -/
inductive Listing (field : Field) : List (List Char) → List (Cell Float) → Prop
  | nil : Listing field [] []
  | idle {text : List Char} {texts : List (List Char)} {entries : List (Cell Float)}
      (htext : Idle text) (hrest : Listing field texts entries) :
      Listing field (text :: texts) entries
  | entry {text : List Char} {texts : List (List Char)} {c : Cell Float}
      {entries : List (Cell Float)} (hentry : Gives field text c)
      (hrest : Listing field texts entries) : Listing field (text :: texts) (c :: entries)

/-- The lines are those of a file for the matrix, with its entries in some order. -/
inductive Writes (banner : Banner) (m : Csc Float) : List (List Char) → Prop
  | intro {top : List Char} {middle : List (List Char)} {line nrows ncols nnz : List Char}
      {body : List (List Char)} {cells entries : List (Cell Float)}
      (htop : Announces top banner) (hmiddle : ∀ text ∈ middle, Idle text)
      (hline : Spaced [nrows, ncols, nnz] line) (hnrows : Denotes nrows m.nrows)
      (hncols : Denotes ncols m.ncols) (hnnz : Denotes nnz m.nnz)
      (hcells : cells.Perm m.cellList)
      (hshown : List.Forall₂ (Shown banner.symmetry) cells entries)
      (hbody : Listing banner.field body entries) :
      Writes banner m (top :: (middle ++ line :: body))

/-! ## A plain file -/

section Plain

variable {m : Csc Float} {c : Cell Float} {banner : Banner} {top : List Char}
  {print : Float → List Char}

/-- The words of the size line. -/
def sizeWords (m : Csc Float) : List (List Char) :=
  [Nat.toDigits 10 m.nrows, Nat.toDigits 10 m.ncols, Nat.toDigits 10 m.nnz]

/-- The words of the line of an entry. -/
def entryWords (print : Float → List Char) (c : Cell Float) : List (List Char) :=
  [Nat.toDigits 10 (c.row + 1), Nat.toDigits 10 (c.column + 1), print c.value]

/-- The lines of a file in which everything is as it is stored, with nothing in between. -/
def plainLines (top : List Char) (print : Float → List Char) (m : Csc Float) : List (List Char) :=
  top :: spread (sizeWords m) :: m.cellList.map fun c => spread (entryWords print c)

theorem isWord_of_mem_sizeWords : ∀ word ∈ sizeWords m, IsWord word := by
  simp only [sizeWords, List.forall_mem_cons, isWord_toDigits, true_and]
  exact fun _ h => nomatch h

theorem isWord_of_mem_entryWords (h : IsWord (print c.value)) :
    ∀ word ∈ entryWords print c, IsWord word := by
  simp only [entryWords, List.forall_mem_cons, isWord_toDigits, h, true_and]
  exact fun _ h => nomatch h

/-- The values of the matrix are printed as words that are read as these values. -/
def PrintsFor (field : Field) (print : Float → List Char) (m : Csc Float) : Prop :=
  ∀ c ∈ m.cellList, IsWord (print c.value) ∧ field.readValue (print c.value) = .ok c.value

theorem listing_of_print {field : Field} {cells : List (Cell Float)}
    (hprint : ∀ c ∈ cells,
      IsWord (print c.value) ∧ field.readValue (print c.value) = .ok c.value) :
    Listing field (cells.map fun c => spread (entryWords print c)) cells := by
  induction cells with
  | nil => exact .nil
  | cons c cells ih =>
      rw [List.forall_mem_cons] at hprint
      obtain ⟨⟨hword, hvalue⟩, hprint⟩ := hprint
      exact .entry ⟨_, _, _, spaced_spread (isWord_of_mem_entryWords hword), denotes_toDigits _,
        denotes_toDigits _, hvalue⟩ (ih hprint)

theorem newline_notMem_spread {words : List (List Char)} (h : ∀ word ∈ words, IsWord word) :
    '\n' ∉ spread words :=
  fun hmem => absurd (eq_space_of_mem_spread h hmem rfl) (by decide)

/-- Every matrix whose values can be printed so that they are read again is that of a plain file. -/
theorem writes_plainLines (htop : Announces top banner)
    (hprint : PrintsFor banner.field print m) : Writes banner m (plainLines top print m) := by
  have hmiddle : ∀ text ∈ ([] : List (List Char)), Idle text := fun _ h => nomatch h
  have hshown : List.Forall₂ (Shown banner.symmetry) m.cellList m.cellList :=
    List.forall₂_same.mpr fun _ _ => .same
  exact .intro htop hmiddle (spaced_spread isWord_of_mem_sizeWords) (denotes_toDigits _)
    (denotes_toDigits _) (denotes_toDigits _) (List.Perm.refl _) hshown (listing_of_print hprint)

theorem exists_encodes_plainLines {field : Field} (htop : '\n' ∉ top)
    (hprint : PrintsFor field print m) :
    ∃ bytes, Encodes bytes (plainLines top print m) := by
  apply exists_encodes
  simp only [plainLines, List.forall_mem_cons, List.forall_mem_map]
  exact ⟨htop, newline_notMem_spread isWord_of_mem_sizeWords,
    fun c hc => newline_notMem_spread (isWord_of_mem_entryWords (hprint c hc).1)⟩

end Plain

/-! ## Lines -/

section Lines

variable {text word : List Char} {ws : List (List Char)} {banner : Banner} {field : Field}
  {c : Cell Float}

theorem not_idle_of_spaced (h : Spaced (word :: ws) text) (hword : word.head? ≠ some '%') :
    ¬ Idle text := by
  rintro (hblank | hcomment)
  · exact nomatch h.words_eq.symm.trans (Spaced.blanks hblank).words_eq
  · exact hword (h.head?_dropWhile ▸ hcomment)

theorem not_comment_of_denotes {n : Nat} (h : Denotes word n) : word.head? ≠ some '%' := by
  obtain ⟨digits, rfl | rfl, -, hdigits, -⟩ := h
  · intro hhead
    exact absurd (hdigits '%' (List.mem_of_head? hhead)) (by decide)
  · rw [List.head?_cons]
    decide

theorem Gives.not_idle (h : Gives field text c) : ¬ Idle text := by
  obtain ⟨row, column, value, hspaced, hrow, -⟩ := h
  exact not_idle_of_spaced hspaced (not_comment_of_denotes hrow)

theorem lists_iff {size : Size} : Lists field size text c ↔
    Gives field text c ∧ c.row < size.nrows ∧ c.column < size.ncols := by
  constructor
  · rintro ⟨row, column, value, hspaced, ⟨hrow, hrow'⟩, ⟨hcolumn, hcolumn'⟩, hvalue⟩
    exact ⟨⟨row, column, value, hspaced, hrow, hcolumn, hvalue⟩, hrow', hcolumn'⟩
  · rintro ⟨⟨row, column, value, hspaced, hrow, hcolumn, hvalue⟩, hrow', hcolumn'⟩
    exact ⟨row, column, value, hspaced, ⟨hrow, hrow'⟩, ⟨hcolumn, hcolumn'⟩, hvalue⟩

/-- A banner starts with its mark, so there is nothing to be cleaned away but blanks. -/
theorem Announces.clean (h : Announces text banner) : Announces (cleanBanner text) banner := by
  obtain ⟨object, format, field, symmetry, hspaced, hkind⟩ := h
  refine ⟨object, format, field, symmetry, ?_, hkind⟩
  have hhead : (trim text).head? = some '%' := by
    rw [head?_trim, hspaced.head?_dropWhile]
    rfl
  have hclean : cleanBanner text = trim text := by
    obtain ⟨rest, hrest⟩ := List.head?_eq_some_iff.mp hhead
    rw [cleanBanner, hrest, List.dropWhile_cons_of_neg (by decide)]
  rw [hclean, ← words_eq_iff, words_trim, hspaced.words_eq]

theorem Listing.body {size : Size} {texts : List (List Char)} {entries : List (Cell Float)}
    (h : Listing field texts entries)
    (hinside : ∀ c ∈ entries, c.row < size.nrows ∧ c.column < size.ncols) :
    Body field size texts entries := by
  induction h with
  | nil => exact .nil
  | idle htext _ ih => exact .idle htext (ih hinside)
  | entry hentry _ ih =>
      rw [List.forall_mem_cons] at hinside
      exact .entry hentry.not_idle (lists_iff.mpr ⟨hentry, hinside.1⟩) (ih hinside.2)

end Lines

/-! ## Entries -/

section Entries

variable {symmetry : Symmetry} {cells entries : List (Cell Float)} {c e : Cell Float}

/-- An entry is put back to where it is stored. -/
theorem Shown.place_eq (h : Shown symmetry c e)
    (hupper : symmetry = .symmetric → c.row ≤ c.column) : symmetry.place e = c := by
  obtain ⟨column, row, value⟩ := c
  cases symmetry with
  | general =>
      cases h with
      | same => rfl
      | opposite hsymmetric => cases hsymmetric
  | symmetric =>
      have hle : row ≤ column := hupper rfl
      cases h with
      | same => rw [Symmetry.place, Nat.max_eq_right hle, Nat.min_eq_left hle]
      | opposite => rw [Symmetry.place, Nat.max_eq_left hle, Nat.min_eq_right hle]

theorem map_place_of_shown (h : List.Forall₂ (Shown symmetry) cells entries)
    (hupper : symmetry = .symmetric → ∀ c ∈ cells, c.row ≤ c.column) :
    entries.map symmetry.place = cells := by
  induction h with
  | nil => rfl
  | cons hshown _ ih =>
      simp only [List.forall_mem_cons] at hupper
      rw [List.map_cons, hshown.place_eq fun hsymmetric => (hupper hsymmetric).1,
        ih fun hsymmetric => (hupper hsymmetric).2]

end Entries

/-! ## Reading back -/

section Reading

variable {allocates : Nat → Bool} {banner : Banner} {m : Csc Float} {texts : List (List Char)}

theorem le_maxSize_of_checkRoom {pointers : Nat} (h : checkRoom allocates pointers = .ok ()) :
    pointers ≤ maxSize := by
  rw [checkRoom] at h
  split at h
  · cases h
  · next hcapacity =>
      have hmax : maxCapacity ≤ maxSize := by decide
      have hbytes : pointers ≤ pointerBytes * pointers := Nat.le_mul_of_pos_left _ (by decide)
      omega

/-- What a file announces of the matrix. -/
def Size.ofMatrix (m : Csc Float) : Size := ⟨m.nrows, m.ncols, m.nnz⟩

/-- What is written says what describes the matrix. -/
theorem Writes.exists_document (h : Writes banner m texts) (hm : m.Valid)
    (hupper : banner.symmetry = .symmetric → m.Upper) (hnrows : m.nrows ≤ maxSize)
    (hnnz : m.nnz ≤ maxSize) (hpointers : m.ncols + 1 ≤ maxSize) :
    ∃ entries, Says texts ⟨banner, .ofMatrix m, entries⟩ ∧
      Describes ⟨banner, .ofMatrix m, entries⟩ m := by
  obtain @⟨top, middle, line, _, _, _, body, cells, entries, htop, hmiddle, hline, hrows, hcolumns,
    hcount, hcells, hshown, hbody⟩ := h
  have hsquare : banner.symmetry = .symmetric → (Size.ofMatrix m).nrows = (Size.ofMatrix m).ncols :=
    fun hsymmetric => (hupper hsymmetric).square
  have hplace : entries.map banner.symmetry.place = cells :=
    map_place_of_shown hshown fun hsymmetric c hc =>
      Csc.row_le_of_mem_cellList (hupper hsymmetric) (hcells.mem_iff.mp hc)
  -- Put where they belong, the entries are the stored ones in the order of their lines.
  rw [← hplace] at hcells
  have hinside : ∀ c ∈ entries,
      c.row < (Size.ofMatrix m).nrows ∧ c.column < (Size.ofMatrix m).ncols := by
    intro c hc
    rw [← inside_place hsquare]
    exact Csc.lt_of_mem_cellList hm (hcells.mem_iff.mp (List.mem_map_of_mem hc))
  have hlength : entries.length = m.nnz := by
    rw [← hm.toFramed.length_cellList, ← hcells.length_eq, List.length_map]
  have hmeasures : Measures line (.ofMatrix m) :=
    ⟨_, _, _, hline, ⟨hrows, hnrows⟩, ⟨hcolumns, Nat.le_of_succ_le hpointers⟩, hcount, hnnz⟩
  have hfront : ∀ text ∈ ([] : List (List Char)), cleanBanner text = [] :=
    fun _ h => nomatch h
  refine ⟨entries, ?_, describes_iff.mpr ⟨rfl, rfl, Triplets.sums_of_perm hm hcells⟩⟩
  exact .intro hfront htop.clean hmiddle
    (not_idle_of_spaced hline (not_comment_of_denotes hrows)) hmeasures hsquare hpointers
    (hbody.body hinside) hlength

theorem readLines_of_writes {bytes : List UInt8} (hm : m.Valid)
    (hupper : banner.symmetry = .symmetric → m.Upper) (hnrows : m.nrows ≤ maxSize)
    (hnnz : m.nnz ≤ maxSize) (hroom : checkRoom allocates (m.ncols + 1) = .ok ())
    (hwrites : Writes banner m texts) (hbytes : Encodes bytes texts) :
    (readLines allocates (Text.lines bytes)).run = some (.ok m) := by
  obtain ⟨entries, hsays, hdescribes⟩ :=
    hwrites.exists_document hm hupper hnrows hnnz (le_maxSize_of_checkRoom hroom)
  have htexts : (texts.map String.ofList).map String.toList = texts := by
    simp [List.map_map, Function.comp_def]
  rw [hbytes.lines_eq, readLines_eq_ok_iff, htexts]
  exact ⟨_, hsays, hroom, hdescribes⟩

/-- A matrix is read back as it was written, in whatever way that was done. Its numbers have to be
in the range of sizes, as those of a matrix in memory are, and there has to be room for the column
pointers. If its values can be printed, a plain file is one such way. -/
theorem read_eq_of_writes (hcheck : m.check.run = some (.ok ()))
    (hupper : banner.symmetry = .symmetric → m.checkUpper.run = some (.ok ()))
    (hnrows : m.nrows ≤ maxSize) (hnnz : m.nnz ≤ maxSize)
    (hroom : checkRoom allocates (m.ncols + 1) = .ok ()) :
    (∀ texts bytes, Writes banner m texts → Encodes bytes texts →
      (read allocates bytes).run = some (.ok m)) ∧
    ∀ top print, Announces top banner → '\n' ∉ top → PrintsFor banner.field print m →
      ∃ bytes, Writes banner m (plainLines top print m) ∧
        Encodes bytes (plainLines top print m) := by
  have hm : m.Valid := Csc.check_eq_ok.mp hcheck
  have hupper' : banner.symmetry = .symmetric → m.Upper :=
    fun hsymmetric => (Csc.checkUpper_eq_ok hm).mp (hupper hsymmetric)
  refine ⟨fun _ _ hwrites hbytes =>
    readLines_of_writes hm hupper' hnrows hnnz hroom hwrites hbytes, ?_⟩
  intro top print htop hnewline hprint
  obtain ⟨bytes, hbytes⟩ := exists_encodes_plainLines hnewline hprint
  exact ⟨bytes, writes_plainLines htop hprint, hbytes⟩

/-- A matrix, stored with its upper triangle. -/
def kite : Csc Float :=
  ⟨2, 2, #[0, 1, 3], #[0, 0, 1], #[nearestInt 4, nearestInt (-3), nearestInt 5]⟩

/-- Lines for it, with the entries from the last to the first and one of them mirrored. -/
def kiteLines : List String :=
  ["%%MatrixMarket matrix Coordinate integer SYMMETRIC", "% a kite", "", " 2\t2 3 ", "2 2 +5",
    "\t% off the diagonal", "2 1   -3", "01 +1 4"]

/-- The file, in which not all lines end alike. -/
def kiteFile : String :=
  "%%MatrixMarket matrix Coordinate integer SYMMETRIC\n% a kite\r\n\n 2\t2 3 \n2 2 +5\r\n" ++
    "\t% off the diagonal\n2 1   -3\n01 +1 4"

theorem writes_kite : Writes ⟨.integer, .symmetric⟩ kite (kiteLines.map String.toList) := by
  have hidle : ∀ text ∈ ["% a kite".toList, "".toList, "\t% off the diagonal".toList],
      Idle text := by
    simp only [← cleanLine_eq_nil]
    decide +kernel
  simp only [List.forall_mem_cons] at hidle
  have htop : Announces "%%MatrixMarket matrix Coordinate integer SYMMETRIC".toList
      ⟨.integer, .symmetric⟩ := ⟨_, _, _, _, words_eq_iff.mp rfl, by decide +kernel⟩
  have hmiddle : ∀ text ∈ ["% a kite".toList, "".toList], Idle text := by
    simp only [List.forall_mem_cons]
    exact ⟨hidle.1, hidle.2.1, fun _ h => nomatch h⟩
  have hcells : kite.cellList.reverse.Perm kite.cellList := List.reverse_perm _
  have hshown : List.Forall₂ (Shown .symmetric) kite.cellList.reverse
      [⟨1, 1, nearestInt 5⟩, ⟨0, 1, nearestInt (-3)⟩, ⟨0, 0, nearestInt 4⟩] :=
    .cons .same (.cons (.opposite rfl) (.cons .same .nil))
  have hcorner : Lists .integer (.ofMatrix kite) "2 2 +5".toList ⟨1, 1, nearestInt 5⟩ :=
    lists_integer rfl rfl (by decide) rfl (by decide) rfl
  have hmirrored : Lists .integer (.ofMatrix kite) "2 1   -3".toList ⟨0, 1, nearestInt (-3)⟩ :=
    lists_integer rfl rfl (by decide) rfl (by decide) rfl
  have hfirst : Lists .integer (.ofMatrix kite) "01 +1 4".toList ⟨0, 0, nearestInt 4⟩ :=
    lists_integer rfl rfl (by decide) rfl (by decide) rfl
  refine .intro htop hmiddle (words_eq_iff.mp rfl) (readNat_eq_ok.mp rfl).1
    (readNat_eq_ok.mp rfl).1 (readNat_eq_ok.mp rfl).1 hcells hshown ?_
  exact .entry (lists_iff.mp hcorner).1 (.idle hidle.2.2.1
    (.entry (lists_iff.mp hmirrored).1 (.entry (lists_iff.mp hfirst).1 .nil)))

theorem encodes_kite : Encodes kiteFile.toUTF8.data.toList (kiteLines.map String.toList) := by
  have hbytes : kiteFile.toUTF8.data.toList =
      encode "%%MatrixMarket matrix Coordinate integer SYMMETRIC".toList ++ newline ::
        (encode "% a kite".toList ++ carriageReturn :: newline ::
          (encode "".toList ++ newline :: (encode " 2\t2 3 ".toList ++ newline ::
            (encode "2 2 +5".toList ++ carriageReturn :: newline ::
              (encode "\t% off the diagonal".toList ++ newline ::
                (encode "2 1   -3".toList ++ newline :: encode "01 +1 4".toList)))))) := by
    decide +kernel
  rw [hbytes]
  exact .newline (by decide) (by decide) (.returned (by decide) (.newline (by decide) (by decide)
    (.newline (by decide) (by decide) (.returned (by decide) (.newline (by decide) (by decide)
      (.newline (by decide) (by decide) (.last (by decide) (by decide))))))))

theorem read_eq_of_writes_kite :
    (read (fun _ => true) kiteFile.toUTF8.data.toList).run = some (.ok kite) :=
  (read_eq_of_writes rfl (fun _ => rfl) (by decide +kernel) (by decide +kernel)
    (by decide +kernel)).1 _ _ writes_kite encodes_kite

end Reading

end Saddle.Market
