import Saddle.Proofs.Market.Reader

/-!
# The first line that is wrong

The reader goes through three parts of a file, and each of its errors comes from one of
many places. But it looks at the lines one after the other and keeps of those behind it
only how far it has come and what it has collected. So it is a machine that takes lines,
and a run of a machine that fails does so at one line: what comes later is not looked at,
and what came before has been accepted. The three errors that are left are those of a
file that ends too early.

The number of a line counts all lines, whatever they hold, and the machine is told it
with the line. Hence an error that names a line names the one at which the run failed.
-/

namespace Saddle.Market

open Text Decimal

/-! ## Reading as a machine -/

/-- How far a file has been read. -/
inductive Progress where
  /-- Nothing has been found. -/
  | outset
  /-- The banner has been read. -/
  | announced (banner : Banner)
  /-- The size has been read, and some entries. -/
  | listing (banner : Banner) (size : Size) (t : Triplets Float)

namespace Progress

/-- What counts of the next line. -/
def clean : Progress → List Char → List Char
  | .outset => cleanBanner
  | .announced _ | .listing _ _ _ => cleanLine

/-- How far the file has been read with one more line that holds something. -/
def accept (allocates : Nat → Bool) (p : Progress) (number : Nat) (text : List Char) :
    Except Error Progress :=
  match p with
  | .outset => return .announced (← readBanner number text)
  | .announced banner => do
      let size ← (readSize allocates number banner.symmetry text).mapError .size
      return .listing banner size (.empty size.nrows size.ncols)
  | .listing banner size t => return .listing banner size (← addEntry banner size number text t)

/-- How far the file has been read with one more line. -/
def advance (allocates : Nat → Bool) (p : Progress) (line : Line) : Except Error Progress := do
  let text := p.clean (← line.read)
  if text = [] then return p else p.accept allocates line.number text

/-- The entries of a file that ends here. -/
def finish : Progress → Except Error (Triplets Float)
  | .outset => .error (.banner .missing)
  | .announced _ => .error (.size .missing)
  | .listing _ size t =>
      if t.size ≠ size.nnz then .error (.entryCount size.nnz t.size) else .ok t

/-- The entries of a file of which the lines are left to be read. -/
def run (allocates : Nat → Bool) (lines : List Line) (p : Progress) :
    Except Error (Triplets Float) :=
  lines.foldlM (advance allocates) p >>= finish

variable {allocates : Nat → Bool} {lines : List Line} {line : Line} {p p' : Progress} {e : Error}

theorem advance_eq_ok : p.advance allocates line = .ok p' ↔ ∃ text, line.text? = some text ∧
    (p.clean text = [] ∧ p = p' ∨
      p.clean text ≠ [] ∧ p.accept allocates line.number (p.clean text) = .ok p') := by
  obtain ⟨number, text?⟩ := line
  cases text? with
  | none => exact iff_of_false (fun h => nomatch h) fun ⟨_, h, _⟩ => nomatch h
  | some text =>
      rw [advance, bind_eq_ok]
      simp only [Line.read, Except.ok.injEq, Option.some.injEq, exists_eq_left']
      by_cases htext : p.clean text = [] <;> simp [htext, pure, Except.pure]

theorem run_cons (p : Progress) :
    p.run allocates (line :: lines) = p.advance allocates line >>= run allocates lines := by
  rw [run, List.foldlM_cons, bind_assoc]
  rfl

/-- As long as a line is missing, the next that holds something is sought. -/
theorem run_seeking {missing : Error} (hfinish : p.finish = .error missing) :
    p.run allocates lines = (do
      let content ← require p.clean missing lines
      (← p.accept allocates content.number content.text).run allocates content.rest) := by
  induction lines with
  | nil => exact hfinish
  | cons line lines ih =>
      rw [run_cons, advance, require, seek]
      cases line.read with
      | error e => rfl
      | ok text =>
          simp only [bind, Except.bind] at ih ⊢
          by_cases htext : p.clean text = []
          · rw [if_pos htext, if_pos htext]
            exact ih
          · rw [if_neg htext, if_neg htext]
            rfl

/-- After that, entries are added. -/
theorem run_listing {banner : Banner} {size : Size} {t : Triplets Float} :
    (listing banner size t).run allocates lines =
      addEntries banner size lines t >>= fun t => (listing banner size t).finish := by
  induction lines generalizing t with
  | nil => rfl
  | cons line lines ih =>
      rw [run_cons, advance, addEntries]
      cases line.read with
      | error e => rfl
      | ok text =>
          simp only [bind, Except.bind]
          by_cases htext : cleanLine text = []
          · rw [if_pos (show (listing banner size t).clean text = [] from htext), if_pos htext]
            exact ih
          · rw [if_neg (show (listing banner size t).clean text ≠ [] from htext), if_neg htext]
            calc (listing banner size t).accept allocates line.number (cleanLine text) >>=
                  run allocates lines
                = addEntry banner size line.number (cleanLine text) t >>= fun t =>
                    (listing banner size t).run allocates lines := by
                  simp only [accept, bind_assoc, pure_bind]
              _ = (addEntry banner size line.number (cleanLine text) t >>=
                    addEntries banner size lines) >>= fun t =>
                      (listing banner size t).finish := by
                  simp only [ih, bind_assoc]

end Progress

/-- How far a file has been read after its lines. -/
def progress (allocates : Nat → Bool) (lines : List (Option String)) : Except Error Progress :=
  (numbered lines).foldlM (Progress.advance allocates) .outset

/-- The machine gathers what the reader does. -/
theorem gather_eq_progress (allocates : Nat → Bool) (lines : List (Option String)) :
    gather allocates lines = progress allocates lines >>= Progress.finish := by
  change gather allocates lines = Progress.outset.run allocates (numbered lines)
  rw [Progress.run_seeking (p := .outset) rfl, gather]
  refine congrArg _ (funext fun first => ?_)
  simp only [Progress.accept, bind_assoc, pure_bind]
  refine congrArg _ (funext fun banner => ?_)
  rw [Progress.run_seeking (p := .announced banner) rfl]
  refine congrArg _ (funext fun second => ?_)
  simp only [Progress.accept, bind_assoc, pure_bind]
  refine congrArg _ (funext fun size => ?_)
  rw [Progress.run_listing]
  rfl

/-! ## The errors -/

/-- Whether the error is that of a file that ends too early. -/
def Error.atEnd : Error → Bool
  | .banner .missing | .size .missing | .entryCount _ _ => true
  | _ => false

/-- Whether the error is that of a line with an entry. -/
def Error.atEntry : Error → Bool
  | .entry _ _ | .position _ => true
  | _ => false

/-- The number of the line that the error names. -/
def Error.line? : Error → Option Nat
  | .banner (.wordCount _ line _) | .banner (.mark line _) | .kind line _
  | .size (.wordCount line _) | .size (.number _ _ line _) | .size (.tooManyColumns _ line)
  | .size (.room _ line _) | .entry line _ => some line
  | _ => none

/-- The error is one that a line with the given number can give, where the file has been read so
far. -/
structure Error.At (e : Error) (p : Progress) (number : Nat) : Prop where
  atEnd : e.atEnd = false
  named : e.line? = none ∨ e.line? = some number
  listing : e.atEntry = true → ∃ banner size t, p = .listing banner size t

section Errors

variable {allocates : Nat → Bool} {p : Progress} {number : Nat} {text : List Char} {e : Error}

theorem Error.At.of_not_atEntry (hend : e.atEnd = false) (hentry : e.atEntry = false)
    (hline : e.line? = none ∨ e.line? = some number) : e.At p number :=
  ⟨hend, hline, fun h => absurd (h.symm.trans hentry) (by decide)⟩

theorem Error.At.eq_of_mem (h : e.At p number) {n : Nat} (hn : n ∈ e.line?) : n = number := by
  rcases h.named with hnone | hsome
  · rw [hnone] at hn
    cases hn
  · rw [hsome] at hn
    exact (Option.some.inj hn).symm

theorem readBanner_eq_error (h : readBanner number text = .error e) : e.At p number := by
  rw [readBanner] at h
  split at h
  · split at h
    · cases h
      exact .of_not_atEntry rfl rfl (.inr rfl)
    · obtain ⟨cause, -, rfl⟩ := mapError_eq_error.mp h
      exact .of_not_atEntry rfl rfl (.inr rfl)
  · cases h
    exact .of_not_atEntry rfl rfl (.inr rfl)

theorem checkSize_eq_error {symmetry : Symmetry} {size : Size} {cause : SizeError}
    (h : checkSize allocates number symmetry size = .error cause) :
    (Error.size cause).At p number := by
  rw [checkSize] at h
  split at h
  · cases h
    exact .of_not_atEntry rfl rfl (.inl rfl)
  · split at h
    · cases h
      exact .of_not_atEntry rfl rfl (.inr rfl)
    · obtain ⟨cause, -, rfl⟩ := mapError_eq_error.mp h
      exact .of_not_atEntry rfl rfl (.inr rfl)

theorem readSize_eq_error {symmetry : Symmetry} {cause : SizeError}
    (h : readSize allocates number symmetry text = .error cause) :
    (Error.size cause).At p number := by
  have hdimension : ∀ dimension word, readDimension number dimension word = .error cause →
      (Error.size cause).At p number := by
    intro dimension word hread
    obtain ⟨_, -, rfl⟩ := mapError_eq_error.mp hread
    exact .of_not_atEntry rfl rfl (.inr rfl)
  rw [readSize] at h
  split at h
  · simp only [bind_eq_error] at h
    rcases h with h | ⟨_, -, h | ⟨_, -, h | ⟨_, -, h | ⟨_, -, h⟩⟩⟩⟩
    · exact hdimension _ _ h
    · exact hdimension _ _ h
    · exact hdimension _ _ h
    · exact checkSize_eq_error h
    · cases h
  · cases h
    exact .of_not_atEntry rfl rfl (.inr rfl)

theorem addEntry_eq_error {banner : Banner} {size : Size} {t : Triplets Float}
    (h : addEntry banner size number text t = .error e) :
    e.At (.listing banner size t) number := by
  have hentry : ∀ cause, (Error.entry number cause).At (.listing banner size t) number :=
    fun _ => ⟨rfl, .inr rfl, fun _ => ⟨_, _, _, rfl⟩⟩
  rw [addEntry] at h
  split at h
  · cases h
    exact hentry _
  · simp only [bind_eq_error] at h
    rcases h with h | ⟨_, -, h | ⟨_, -, h⟩⟩
    · obtain ⟨_, -, rfl⟩ := mapError_eq_error.mp h
      exact hentry _
    · obtain ⟨_, -, rfl⟩ := mapError_eq_error.mp h
      exact ⟨rfl, .inl rfl, fun _ => ⟨_, _, _, rfl⟩⟩
    · cases h

theorem Progress.accept_eq_error (h : p.accept allocates number text = .error e) :
    e.At p number := by
  cases p with
  | outset =>
      rw [accept, bind_pure_eq_error] at h
      exact readBanner_eq_error h
  | announced banner =>
      rw [accept, bind_pure_eq_error, mapError_eq_error] at h
      obtain ⟨cause, h, rfl⟩ := h
      exact readSize_eq_error h
  | listing banner size t =>
      rw [accept, bind_pure_eq_error] at h
      exact addEntry_eq_error h

theorem Progress.advance_eq_error {line : Line} (h : p.advance allocates line = .error e) :
    e.At p line.number := by
  rw [advance, bind_eq_error] at h
  rcases h with h | ⟨text, -, h⟩
  · rw [Line.read] at h
    split at h
    · cases h
    · cases h
      exact .of_not_atEntry rfl rfl (.inl rfl)
  · by_cases htext : p.clean text = []
    · rw [if_pos htext] at h
      cases h
    · rw [if_neg htext] at h
      exact accept_eq_error h

theorem Progress.finish_eq_error (h : p.finish = .error e) :
    e.atEnd = true ∧ ∀ expected actual, e = .entryCount expected actual →
      ∃ banner size t, p = .listing banner size t ∧ size.nnz = expected ∧ t.size = actual ∧
        actual ≠ expected := by
  cases p with
  | outset =>
      cases h
      exact ⟨rfl, fun _ _ h => nomatch h⟩
  | announced banner =>
      cases h
      exact ⟨rfl, fun _ _ h => nomatch h⟩
  | listing banner size t =>
      rw [finish] at h
      split at h
      · next hcount =>
          cases h
          refine ⟨rfl, fun expected actual h => ?_⟩
          obtain ⟨rfl, rfl⟩ := Error.entryCount.inj h
          exact ⟨_, _, _, rfl, rfl, rfl, hcount⟩
      · cases h

theorem Progress.finish_eq_ok {t : Triplets Float} (h : p.finish = .ok t) :
    ∃ banner size, p = .listing banner size t ∧ t.size = size.nnz := by
  cases p with
  | outset => cases h
  | announced banner => cases h
  | listing banner size t' =>
      rw [finish] at h
      split at h
      · cases h
      · next hcount =>
          cases h
          exact ⟨banner, size, rfl, not_not.mp hcount⟩

end Errors

/-! ## What has been accepted -/

/-- The lines are those of a file that begins with what the document holds: all its lines are
accepted, and more entries may follow. -/
inductive Begins : List (List Char) → Document → Prop
  | intro {front : List (List Char)} {top : List Char} {middle : List (List Char)}
      {line : List Char} {body : List (List Char)} {d : Document}
      (hfront : ∀ text ∈ front, cleanBanner text = [])
      (hbanner : Announces (cleanBanner top) d.banner)
      (hmiddle : ∀ text ∈ middle, Idle text) (hline : ¬ Idle line) (hsize : Measures line d.size)
      (hsquare : d.banner.symmetry = .symmetric → d.size.nrows = d.size.ncols)
      (hpointers : d.size.ncols + 1 ≤ maxSize) (hbody : Body d.banner.field d.size body d.entries)
      (hcount : d.entries.length ≤ d.size.nnz) : Begins (front ++ top :: (middle ++ line :: body)) d

/-- The file has been read so far after the given lines. -/
inductive Reaches : List (List Char) → Progress → Prop
  | outset {front : List (List Char)} (hfront : ∀ text ∈ front, cleanBanner text = []) :
      Reaches front .outset
  | announced {front : List (List Char)} {top : List Char} {middle : List (List Char)}
      {banner : Banner} (hfront : ∀ text ∈ front, cleanBanner text = [])
      (hbanner : Announces (cleanBanner top) banner) (hmiddle : ∀ text ∈ middle, Idle text) :
      Reaches (front ++ top :: middle) (.announced banner)
  | listing {texts : List (List Char)} {d : Document} (hbegins : Begins texts d) :
      Reaches texts (.listing d.banner d.size (collected d.size d.cells))

section Accepted

variable {allocates : Nat → Bool} {texts more : List (List Char)} {text : List Char}
  {d : Document} {entries : List (Cell Float)} {p p' : Progress} {line : Line} {number : Nat}

theorem Body.append {field : Field} {size : Size} {more' : List (Cell Float)}
    (h : Body field size texts entries) (hmore : Body field size more more') :
    Body field size (texts ++ more) (entries ++ more') := by
  induction h with
  | nil => exact hmore
  | idle htext _ ih => exact .idle htext ih
  | entry htext hentry _ ih => exact .entry htext hentry ih

/-- A file whose entries have all been given is one that says what it begins with. -/
theorem says_iff : Says texts d ↔ Begins texts d ∧ d.entries.length = d.size.nnz := by
  constructor
  · rintro ⟨hfront, hbanner, hmiddle, hline, hsize, hsquare, hpointers, hbody, hcount⟩
    exact ⟨.intro hfront hbanner hmiddle hline hsize hsquare hpointers hbody hcount.le, hcount⟩
  · rintro ⟨⟨hfront, hbanner, hmiddle, hline, hsize, hsquare, hpointers, hbody, -⟩, hcount⟩
    exact .intro hfront hbanner hmiddle hline hsize hsquare hpointers hbody hcount

theorem size_collected (d : Document) : (collected d.size d.cells).size = d.entries.length := by
  simp [collected, Triplets.size, Document.cells]

namespace Begins

theorem sized (h : Begins texts d) : Sized d.banner.symmetry d.size := by
  obtain ⟨-, -, -, -, hsize, hsquare, -, -, -⟩ := h
  exact hsize.sized hsquare

theorem append (h : Begins texts d) (hmore : Body d.banner.field d.size more entries)
    (hcount : d.entries.length + entries.length ≤ d.size.nnz) :
    Begins (texts ++ more) ⟨d.banner, d.size, d.entries ++ entries⟩ := by
  obtain ⟨hfront, hbanner, hmiddle, hline, hsize, hsquare, hpointers, hbody, -⟩ := h
  rw [List.append_assoc, List.cons_append, List.append_assoc, List.cons_append]
  exact .intro hfront hbanner hmiddle hline hsize hsquare hpointers (hbody.append hmore)
    (by rwa [List.length_append])

theorem length_le (h : Begins texts d) : d.entries.length ≤ d.size.nnz := by
  obtain ⟨-, -, -, -, -, -, -, -, hcount⟩ := h
  exact hcount

end Begins

namespace Reaches

theorem idle (h : Reaches texts p) (htext : p.clean text = []) : Reaches (texts ++ [text]) p := by
  cases h with
  | outset hfront =>
      exact .outset (List.forall_mem_append.mpr ⟨hfront, List.forall_mem_singleton.mpr htext⟩)
  | announced hfront hbanner hmiddle =>
      rw [List.append_assoc, List.cons_append]
      exact .announced hfront hbanner (List.forall_mem_append.mpr
        ⟨hmiddle, List.forall_mem_singleton.mpr (cleanLine_eq_nil.mp htext)⟩)
  | listing hbegins =>
      have h := hbegins.append (.idle (cleanLine_eq_nil.mp htext) .nil) hbegins.length_le
      rw [List.append_nil] at h
      exact .listing h

theorem accept (h : Reaches texts p) (htext : p.clean text ≠ [])
    (haccept : p.accept allocates number (p.clean text) = .ok p') :
    Reaches (texts ++ [text]) p' := by
  cases h with
  | outset hfront =>
      obtain ⟨banner, hbanner, h⟩ := bind_eq_ok.mp haccept
      cases h
      exact .announced hfront (readBanner_eq_ok.mp hbanner) (by simp)
  | announced hfront hbanner hmiddle =>
      have hline := mt cleanLine_eq_nil.mpr htext
      obtain ⟨size, hsize, h⟩ := bind_eq_ok.mp haccept
      cases h
      obtain ⟨hmeasures, hsquare, hpointers, -⟩ := readSize_eq_ok.mp (mapError_eq_ok.mp hsize)
      rw [List.append_assoc, List.cons_append]
      exact .listing (d := ⟨_, size, []⟩) (.intro hfront hbanner hmiddle hline
        ((measures_cleanLine hline).mp hmeasures) hsquare hpointers .nil (Nat.zero_le _))
  | @listing _ d hbegins =>
      have hline := mt cleanLine_eq_nil.mpr htext
      obtain ⟨t, ht, h⟩ := bind_eq_ok.mp haccept
      cases h
      have hlength : d.cells.length = d.entries.length := List.length_map _
      obtain ⟨hlt, c, hc, rfl⟩ := (addEntry_eq_ok hbegins.sized).mp ht
      rw [hlength] at hlt
      -- The entry was added only because there were fewer than announced.
      have h := hbegins.append (.entry hline ((lists_cleanLine hline).mp hc) .nil) hlt
      have hcells : d.cells ++ [d.banner.symmetry.place c] =
          Document.cells ⟨d.banner, d.size, d.entries ++ [c]⟩ := by
        rw [Document.cells, Document.cells, List.map_append, List.map_singleton]
      rw [hcells]
      exact .listing h

theorem advance (h : Reaches texts p) (hadvance : p.advance allocates line = .ok p') :
    ∃ text, line.text? = some text ∧ Reaches (texts ++ [text]) p' := by
  obtain ⟨text, htext, ⟨hclean, rfl⟩ | ⟨hclean, haccept⟩⟩ := Progress.advance_eq_ok.mp hadvance
  · exact ⟨text, htext, h.idle hclean⟩
  · exact ⟨text, htext, h.accept hclean haccept⟩

theorem begins {banner : Banner} {size : Size} {t : Triplets Float}
    (h : Reaches texts (.listing banner size t)) :
    ∃ d, Begins texts d ∧ size = d.size ∧ t = collected d.size d.cells := by
  cases h with
  | listing hbegins => exact ⟨_, hbegins, rfl, rfl⟩

end Reaches

end Accepted

/-! ## The first offence -/

/-- The file fails with the error at the line of the given number, and at none before. -/
structure FirstOffence (allocates : Nat → Bool) (lines : List (Option String)) (l : Nat)
    (e : Error) : Prop where
  pos : 0 < l
  le : l ≤ lines.length
  /-- Whatever follows the line, the file fails with this error. -/
  reported : ∀ lines', lines'.take l = lines.take l →
    (readLines allocates lines').run = some (.error e)
  /-- Without the line nothing is wrong yet: at most the file ends too early. -/
  before : ∀ e', (readLines allocates (lines.take (l - 1))).run = some (.error e') →
    e'.atEnd = true
  /-- If the error names a line, then this one. -/
  named : ∀ n ∈ e.line?, n = l
  /-- All lines before it have been accepted. -/
  accepted : ∃ (texts : List String) (p : Progress),
    lines.take (l - 1) = texts.map some ∧ Reaches (texts.map String.toList) p
  /-- If an entry is wrong, the lines before it give a size and no more entries than announced. -/
  listed : e.atEntry = true → ∃ (texts : List String) (d : Document),
    lines.take (l - 1) = texts.map some ∧ Begins (texts.map String.toList) d

section Files

variable {allocates : Nat → Bool} {lines before after : List (Option String)}
  {text : Option String} {l l' : Nat} {e : Error} {p : Progress}

theorem numbered_append_cons (before : List (Option String)) (text : Option String)
    (after : List (Option String)) : ∃ rest, numbered (before ++ text :: after) =
      numbered before ++ ⟨before.length + 1, text.map String.toList⟩ :: rest := by
  rw [numbered, List.zipIdx_append, List.map_append, List.zipIdx_cons, List.map_cons,
    Nat.add_comm 1]
  exact ⟨_, rfl⟩

theorem numbered_eq_append_cons {pre rest : List Line} {line : Line}
    (h : numbered lines = pre ++ line :: rest) : ∃ before text after,
      lines = before ++ text :: after ∧ pre = numbered before ∧
        line = ⟨before.length + 1, text.map String.toList⟩ := by
  obtain ⟨_, _, hsplit, rfl, hrest⟩ := List.map_eq_append_iff.mp h
  obtain ⟨before, after, rfl, rfl, rfl⟩ := List.zipIdx_eq_append_iff.mp hsplit
  cases after with
  | nil => cases hrest
  | cons text after =>
      rw [List.zipIdx_cons, List.map_cons, List.cons.injEq, Nat.add_comm 1] at hrest
      exact ⟨before, text, after, rfl, rfl, hrest.1.symm⟩

theorem map_text?_numbered (lines : List (Option String)) :
    (numbered lines).map Line.text? = lines.map (Option.map String.toList) := by
  calc (numbered lines).map Line.text?
      = (lines.zipIdx 1).map (Option.map String.toList ∘ Prod.fst) := List.map_map
    _ = lines.map (Option.map String.toList) := by rw [← List.map_map, List.zipIdx_map_fst]

/-- What has been read are lines of the format. -/
theorem exists_reaches (h : progress allocates lines = .ok p) :
    ∃ texts : List String, lines = texts.map some ∧ Reaches (texts.map String.toList) p := by
  obtain ⟨texts, htexts, hreaches⟩ := foldlM_eq_ok_keeps
    (I := fun lines p => ∃ texts, lines.map Line.text? = texts.map some ∧ Reaches texts p)
    ⟨[], rfl, .outset (by simp)⟩
    (by
      rintro lines p line p' ⟨texts, hlines, hreaches⟩ hadvance
      obtain ⟨text, htext, hreaches⟩ := hreaches.advance hadvance
      exact ⟨texts ++ [text], by simp [hlines, htext], hreaches⟩) h
  -- The machine has read characters, and the lines are the strings of these.
  have hinj : Function.Injective (List.map (Option.map String.toList)) :=
    List.map_injective_iff.mpr (Option.map_injective fun _ _ => String.toList_injective)
  have htoList : (texts.map String.ofList).map String.toList = texts := by
    simp [Function.comp_def]
  refine ⟨texts.map String.ofList, hinj ?_, htoList.symm ▸ hreaches⟩
  rw [← map_text?_numbered, htexts]
  simp [Function.comp_def]

/-- An error is found at a line, when all before have been read, or after the last one. -/
theorem exists_of_gather_eq_error (h : gather allocates lines = .error e) :
    (∃ before text after p, lines = before ++ text :: after ∧
      progress allocates before = .ok p ∧
        p.advance allocates ⟨before.length + 1, text.map String.toList⟩ = .error e) ∨
    ∃ p, progress allocates lines = .ok p ∧ p.finish = .error e := by
  rw [gather_eq_progress, bind_eq_error] at h
  refine h.imp_left fun h => ?_
  obtain ⟨pre, line, rest, p, hlines, hpre, hadvance⟩ := exists_of_foldlM_eq_error h
  obtain ⟨before, text, after, rfl, rfl, rfl⟩ := numbered_eq_append_cons hlines
  exact ⟨before, text, after, p, rfl, hpre, hadvance⟩

/-- Nothing behind a line at which a file fails is looked at. -/
theorem readLines_of_advance_eq_error (hbefore : progress allocates before = .ok p)
    (hadvance : p.advance allocates ⟨before.length + 1, text.map String.toList⟩ = .error e)
    (after : List (Option String)) :
    (readLines allocates (before ++ text :: after)).run = some (.error e) := by
  obtain ⟨rest, hrest⟩ := numbered_append_cons before text after
  have hprogress : progress allocates (before ++ text :: after) = .error e := by
    rw [progress, hrest, List.foldlM_append, ← progress, hbefore]
    change (_ :: rest).foldlM (Progress.advance allocates) p = _
    rw [List.foldlM_cons, hadvance]
    rfl
  rw [readLines_eq_error, gather_eq_progress, hprogress]
  rfl

theorem firstOffence_of_advance_eq_error (hbefore : progress allocates before = .ok p)
    (hadvance : p.advance allocates ⟨before.length + 1, text.map String.toList⟩ = .error e)
    (after : List (Option String)) :
    FirstOffence allocates (before ++ text :: after) (before.length + 1) e := by
  have hat := Progress.advance_eq_error hadvance
  have htake : (before ++ text :: after).take (before.length + 1 - 1) = before := List.take_left
  obtain ⟨texts, htexts, hreaches⟩ := exists_reaches hbefore
  refine ⟨Nat.succ_pos _, by simp, fun lines' h => ?_, fun e' h => ?_,
    fun _ => hat.eq_of_mem, ?_, fun h => ?_⟩
  · have hlines' : lines' = before ++ text :: lines'.drop (before.length + 1) := by
      rw [List.take_length_add_append, List.take_succ_cons, List.take_zero] at h
      rw [← List.singleton_append, ← List.append_assoc, ← h, List.take_append_drop]
    rw [hlines']
    exact readLines_of_advance_eq_error hbefore hadvance _
  · rw [htake, readLines_eq_error, gather_eq_progress, hbefore] at h
    exact (Progress.finish_eq_error h).1
  · exact ⟨texts, p, htake.trans htexts, hreaches⟩
  · obtain ⟨banner, size, t, rfl⟩ := hat.listing h
    obtain ⟨d, hbegins, -⟩ := hreaches.begins
    exact ⟨texts, d, htake.trans htexts, hbegins⟩

theorem FirstOffence.unique (hend : e.atEnd = false) (h : FirstOffence allocates lines l e)
    (h' : FirstOffence allocates lines l' e) : l = l' := by
  -- A later line would be reached only if the file did not fail before.
  have hle : ∀ {l l'}, FirstOffence allocates lines l e → FirstOffence allocates lines l' e →
      l' ≤ l := by
    intro l l' h h'
    by_contra hlt
    have hread : (readLines allocates (lines.take (l' - 1))).run = some (.error e) :=
      h.reported _ (by rw [List.take_take, Nat.min_eq_left (by omega)])
    exact Bool.false_ne_true (hend.symm.trans (h'.before e hread))
  exact Nat.le_antisymm (hle h' h) (hle h h')

theorem exists_firstOffence (h : gather allocates lines = .error e) (hend : e.atEnd = false) :
    ∃ l, FirstOffence allocates lines l e := by
  rcases exists_of_gather_eq_error h with ⟨before, text, after, p, rfl, hbefore, hadvance⟩ |
    ⟨p, -, hfinish⟩
  · exact ⟨_, firstOffence_of_advance_eq_error hbefore hadvance after⟩
  · exact absurd (hend.symm.trans (Progress.finish_eq_error hfinish).1) Bool.false_ne_true

/-- Too few entries are counted only when all lines have been accepted. -/
theorem begins_of_entryCount {expected actual : Nat}
    (h : gather allocates lines = .error (.entryCount expected actual)) :
    ∃ (texts : List String) (d : Document), lines = texts.map some ∧
      Begins (texts.map String.toList) d ∧ d.size.nnz = expected ∧ d.entries.length = actual ∧
        actual < expected := by
  rcases exists_of_gather_eq_error h with ⟨before, text, after, p, rfl, hbefore, hadvance⟩ |
    ⟨p, hlines, hfinish⟩
  · exact absurd (Progress.advance_eq_error hadvance).atEnd Bool.noConfusion
  · obtain ⟨texts, htexts, hreaches⟩ := exists_reaches hlines
    obtain ⟨banner, size, t, rfl, rfl, rfl, hne⟩ := (Progress.finish_eq_error hfinish).2 _ _ rfl
    obtain ⟨d, hbegins, rfl, rfl⟩ := hreaches.begins
    rw [size_collected] at hne ⊢
    exact ⟨texts, d, htexts, hbegins, rfl, rfl, Nat.lt_of_le_of_ne hbegins.length_le hne⟩

/-- What has been gathered are the entries of a document. -/
theorem exists_says_of_gather {t : Triplets Float} (h : gather allocates lines = .ok t) :
    ∃ (texts : List String) (d : Document), Says (texts.map String.toList) d ∧
      t = collected d.size d.cells := by
  rw [gather_eq_progress, bind_eq_ok] at h
  obtain ⟨p, hlines, hfinish⟩ := h
  obtain ⟨texts, -, hreaches⟩ := exists_reaches hlines
  obtain ⟨banner, size, rfl, hcount⟩ := Progress.finish_eq_ok hfinish
  obtain ⟨d, hbegins, rfl, rfl⟩ := hreaches.begins
  exact ⟨texts, d, says_iff.mpr ⟨hbegins, (size_collected d).symm.trans hcount⟩, rfl⟩

/-- The reader comes to an answer on every file: the entries it gathers fit into the matrix. -/
theorem exists_run_read (allocates : Nat → Bool) (bytes : List UInt8) :
    ∃ r, (read allocates bytes).run = some r := by
  rw [read]
  cases hgather : gather allocates (Text.lines bytes) with
  | error e => exact ⟨_, readLines_eq_error.mpr hgather⟩
  | ok t =>
      obtain ⟨texts, d, hsays, rfl⟩ := exists_says_of_gather hgather
      obtain ⟨a, slots, hbuild, -⟩ := hsays.build
      exact ⟨_, readLines_eq_ok.mpr ⟨_, slots, hgather, hbuild⟩⟩

/-- A file that is not read fails at the first line that is wrong, or it ends too early; and with
too few entries only if all of its lines are accepted. -/
theorem firstOffence_of_error {bytes : List UInt8}
    (h : (read allocates bytes).run = some (.error e)) :
    (e.atEnd = false → ∃! l, FirstOffence allocates (Text.lines bytes) l e) ∧
      ∀ expected actual, e = .entryCount expected actual →
        ∃ (texts : List String) (d : Document), Text.lines bytes = texts.map some ∧
          Begins (texts.map String.toList) d ∧ d.size.nnz = expected ∧
            d.entries.length = actual ∧ actual < expected := by
  rw [read, readLines_eq_error] at h
  constructor
  · intro hend
    obtain ⟨l, hl⟩ := exists_firstOffence h hend
    exact ⟨l, hl, fun l' hl' => hl'.unique hend hl⟩
  · rintro expected actual rfl
    exact begins_of_entryCount h

/-- A file that counts from zero. -/
def zeroBased : List String :=
  ["%%MatrixMarket matrix coordinate integer general", "% a pair", "2 2 2", "1 1 5", "", "0 1 3",
    "2 2"]

/-- The same file without its last lines. -/
def lacking : List String := zeroBased.take 4

theorem firstOffence_of_error_zeroBased :
    FirstOffence (fun _ => true) (Text.lines ("\n".intercalate zeroBased).toUTF8.data.toList) 6
        (.entry 6 .zeroIndex) ∧
      ∃ (texts : List String) (d : Document),
        Text.lines ("\n".intercalate lacking).toUTF8.data.toList = texts.map some ∧
          Begins (texts.map String.toList) d ∧ d.size.nnz = 2 ∧ d.entries.length = 1 ∧ 1 < 2 := by
  have hlines : Text.lines ("\n".intercalate zeroBased).toUTF8.data.toList = zeroBased.map some ∧
      Text.lines ("\n".intercalate lacking).toUTF8.data.toList = lacking.map some := by
    decide +kernel
  have hzero : (read (fun _ => true) ("\n".intercalate zeroBased).toUTF8.data.toList).run =
      some (.error (.entry 6 .zeroIndex)) := by
    rw [read, hlines.1]
    rfl
  have hlacking : (read (fun _ => true) ("\n".intercalate lacking).toUTF8.data.toList).run =
      some (.error (.entryCount 2 1)) := by
    rw [read, hlines.2]
    rfl
  obtain ⟨l, hl, -⟩ := (firstOffence_of_error hzero).1 rfl
  obtain rfl : 6 = l := hl.named 6 rfl
  exact ⟨hl, (firstOffence_of_error hlacking).2 2 1 rfl⟩

end Files

end Saddle.Market
