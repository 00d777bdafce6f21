import NyanSD.IniGrammar

/-!
# What a file says

The loop over the lines keeps a section, a name and the first error. Given the readings
of the lines, the calls of the handler and the error are functions of these alone: a bad
line sets the error and does nothing else, so a file without its bad lines says the same.
-/

namespace NyanSD.Ini

open StdString TextLines

/-! ## One line -/

/-- The line without the byte order mark. -/
def unmark (line : Bytes) : Bytes := if bom <+: line then line.drop bom.length else line

/-- The loop's body for a line that says this. -/
def perform {User : Type} (handler : IniHandler User) (s : ParseState User) :
    Item → ParseState User
  | .nothing => s
  | .header title => { s with title := strncpy0 title maxSection, prevName := [] }
  | .entry name value => { s with prevName := strncpy0 name maxName }.call handler name value
  | .continuation text => s.call handler s.prevName text
  | .bad => s.fail

section Line

variable {User : Type} (handler : IniHandler User)

theorem parseSection_eq (s : ParseState User) (text : Bytes) :
    parseSection s text = perform handler s (readSection text) := by
  rw [parseSection, readSection]
  dsimp only
  split
  · rfl
  · rfl

theorem parsePair_eq (s : ParseState User) (start : Bytes) :
    parsePair handler s start = perform handler s (readPair start) := by
  rw [parsePair, readPair]
  dsimp only
  split
  · rfl
  · rfl

/-- The mark matters on the first line, which continues nothing. -/
theorem parseLine_eq (s : ParseState User) (buffer : Bytes)
    (hfirst : s.lineno = 0 → s.prevName = []) :
    parseLine handler s buffer =
      perform handler { s with lineno := s.lineno + 1 }
        (readLine (s.prevName ≠ [])
          (if s.lineno = 0 then unmark (cString buffer) else cString buffer)) := by
  have hline : (if s.lineno + 1 = 1 ∧ bom <+: cString buffer then
      (cString buffer).drop bom.length else cString buffer) =
        if s.lineno = 0 then unmark (cString buffer) else cString buffer := by
    by_cases hzero : s.lineno = 0
    · simp [hzero, unmark]
    · simp [hzero]
  have hcontinues : ∀ (moved : Prop) [Decidable moved],
      (s.prevName ≠ [] ∧ ((s.lineno + 1 = 1 ∧ bom <+: cString buffer) ∨ moved)) ↔
        (decide (s.prevName ≠ []) && decide moved) = true := by
    -- a mark moves the start as indentation does, but on the first line there is no name yet
    intro moved _
    rw [Bool.and_eq_true, decide_eq_true_eq, decide_eq_true_eq]
    apply and_congr_right
    intro hprev
    refine or_iff_right ?_
    rintro ⟨hone, -⟩
    exact hprev (hfirst (Nat.succ.inj hone))
  simp only [parseLine, hline, readLine, hcontinues]
  generalize (if s.lineno = 0 then unmark (cString buffer) else cString buffer) = line
  cases lskip (rstrip line) with
  | nil => rfl
  | cons c rest =>
      simp only [readStart, apply_ite (perform handler { s with lineno := s.lineno + 1 }),
        ← parseSection_eq, ← parsePair_eq]
      rfl

end Line

/-! ## All lines -/

/-- Whether the next line can continue a value. -/
def Item.continues (before : Bool) : Item → Bool
  | .header _ => false
  | .entry name _ => name ≠ []
  | _ => before

/-- The readings of consecutive lines. -/
inductive ReadsAll : Bool → List Bytes → List Item → Prop
  | nil {continues : Bool} : ReadsAll continues [] []
  | cons {continues : Bool} {line : Bytes} {lines : List Bytes} {item : Item}
      {items : List Item} : Reads continues line item →
      ReadsAll (item.continues continues) lines items →
      ReadsAll continues (line :: lines) (item :: items)

theorem exists_readsAll (continues : Bool) (lines : List Bytes) :
    ∃ items, ReadsAll continues lines items := by
  induction lines generalizing continues with
  | nil => exact ⟨[], .nil⟩
  | cons line rest ih =>
      obtain ⟨item, hitem⟩ := exists_reads continues line
      obtain ⟨items, hitems⟩ := ih (item.continues continues)
      exact ⟨item :: items, .cons hitem hitems⟩

theorem ReadsAll.unique {continues : Bool} {lines : List Bytes} {items others : List Item}
    (hitems : ReadsAll continues lines items) (hothers : ReadsAll continues lines others) :
    others = items := by
  induction hitems generalizing others with
  | nil =>
      cases hothers
      rfl
  | cons hitem _ ih =>
      cases hothers with
      | cons hother hrest =>
          obtain rfl : _ = _ := hother.readLine_eq.symm.trans hitem.readLine_eq
          rw [ih hrest]

/-- A call of the handler. -/
structure Call where
  title : Bytes
  name : Bytes
  value : Bytes
deriving DecidableEq, Repr

/-- The calls in a section after a name. Both are cut to the size of their arrays, the name
where it is kept for the lines that continue its value. -/
def calls : Bytes → Bytes → List Item → List Call
  | _, _, [] => []
  | _, _, .header title :: rest => calls (strncpy0 title maxSection) [] rest
  | title, _, .entry name value :: rest =>
      ⟨title, name, value⟩ :: calls title (strncpy0 name maxName) rest
  | title, prevName, .continuation text :: rest =>
      ⟨title, prevName, text⟩ :: calls title prevName rest
  | title, prevName, _ :: rest => calls title prevName rest

/-- The number of the first bad line, counted from one, or zero. -/
def firstBad (items : List Item) : Nat := ((items.idxOf? .bad).map (· + 1)).getD 0

section Run

variable {User : Type} {handler : IniHandler User}

/-- What the handler makes of a call. -/
def IniHandler.file (handler : IniHandler User) (user : User) (call : Call) : User :=
  (handler user call.title call.name call.value).2

/-- The loop's body on a line that has been read. -/
def ParseState.read (handler : IniHandler User) (s : ParseState User) (item : Item) :
    ParseState User :=
  perform handler { s with lineno := s.lineno + 1 } item

/-- What a turn leaves, if the handler accepts everything: it makes at most one call, and sets
an error of its own only if the line is bad. -/
structure Turn (handler : IniHandler User) (s : ParseState User) (item : Item)
    (next : ParseState User) : Prop where
  lineno : next.lineno = s.lineno + 1
  prevName : decide (next.prevName ≠ []) = item.continues (s.prevName ≠ [])
  error : next.error = if item = .bad ∧ s.error = 0 then s.lineno + 1 else s.error
  user : ∀ rest, (calls s.title s.prevName (item :: rest)).foldl handler.file s.user =
    (calls next.title next.prevName rest).foldl handler.file next.user

theorem turn_read (haccepts : ∀ user title name value, (handler user title name value).1)
    (s : ParseState User) (item : Item) : Turn handler s item (s.read handler item) := by
  have hcall : ∀ (s : ParseState User) (name value : Bytes), s.call handler name value =
      { s with user := handler.file s.user ⟨s.title, name, value⟩ } := by
    intro s name value
    simp [ParseState.call, haccepts, IniHandler.file]
  cases item with
  | nothing => exact ⟨rfl, rfl, rfl, fun _ => rfl⟩
  | header title => exact ⟨rfl, rfl, rfl, fun _ => rfl⟩
  | entry name value =>
      rw [ParseState.read, perform, hcall]
      refine ⟨rfl, ?_, rfl, fun _ => rfl⟩
      simp [strncpy0, maxName, Item.continues]
  | continuation text =>
      rw [ParseState.read, perform, hcall]
      exact ⟨rfl, rfl, rfl, fun _ => rfl⟩
  | bad =>
      rw [ParseState.read, perform, ParseState.fail]
      by_cases herror : s.error = 0
      · rw [if_pos herror]
        exact ⟨rfl, rfl, by simp [herror], fun _ => rfl⟩
      · rw [if_neg herror]
        exact ⟨rfl, rfl, by simp [herror], fun _ => rfl⟩

/-- Behind the first line no mark is looked for. -/
theorem foldl_parseLine (haccepts : ∀ user title name value, (handler user title name value).1)
    {s : ParseState User} {buffers : List Bytes} {items : List Item} (hlate : s.lineno ≠ 0)
    (hreads : ReadsAll (s.prevName ≠ []) (buffers.map cString) items) :
    buffers.foldl (parseLine handler) s = items.foldl (ParseState.read handler) s := by
  induction buffers generalizing s items with
  | nil =>
      cases hreads
      rfl
  | cons buffer rest ih =>
      cases hreads with
      | @cons _ _ _ item items hitem hrest =>
          have hturn := turn_read haccepts s item
          have hline : parseLine handler s buffer = s.read handler item := by
            rw [parseLine_eq handler s buffer fun hzero => absurd hzero hlate, if_neg hlate,
              hitem.readLine_eq]
            rfl
          rw [← hturn.prevName] at hrest
          rw [List.foldl_cons, List.foldl_cons, hline]
          exact ih (by rw [hturn.lineno]; exact Nat.succ_ne_zero _) hrest

/-- The lines of a stream: its buffers as strings, the first one without its mark. -/
def textLines (buffers : List Bytes) : List Bytes := (buffers.map cString).modifyHead unmark

theorem iniParseStream_eq (haccepts : ∀ user title name value, (handler user title name value).1)
    {buffers : List Bytes} {items : List Item} (user : User)
    (hreads : ReadsAll false (textLines buffers) items) :
    iniParseStream handler buffers user = items.foldl (ParseState.read handler) { user } := by
  cases buffers with
  | nil =>
      cases hreads
      rfl
  | cons buffer rest =>
      cases hreads with
      | @cons _ _ _ item items hitem hrest =>
          have hturn := turn_read haccepts { user } item
          have hline : parseLine handler { user } buffer =
              ({ user } : ParseState User).read handler item := by
            rw [parseLine_eq handler _ buffer fun _ => rfl, if_pos rfl]
            exact congrArg _ hitem.readLine_eq
          have hnone : decide (({ user } : ParseState User).prevName ≠ []) = false := rfl
          rw [← hnone, ← hturn.prevName] at hrest
          rw [iniParseStream, List.foldl_cons, List.foldl_cons, hline]
          exact foldl_parseLine haccepts (by rw [hturn.lineno]; exact Nat.succ_ne_zero _) hrest

/-- The calls reach the handler in order, and the first error stays. -/
theorem foldl_read (haccepts : ∀ user title name value, (handler user title name value).1)
    (s : ParseState User) (items : List Item) :
    (items.foldl (ParseState.read handler) s).user =
        (calls s.title s.prevName items).foldl handler.file s.user ∧
      (items.foldl (ParseState.read handler) s).error =
        if s.error = 0 then ((items.idxOf? .bad).map (s.lineno + 1 + ·)).getD 0 else s.error := by
  induction items generalizing s with
  | nil =>
      refine ⟨rfl, ?_⟩
      by_cases herror : s.error = 0
      · simp [herror]
      · simp [herror]
  | cons item rest ih =>
      have hturn := turn_read haccepts s item
      obtain ⟨huser, herror⟩ := ih (s.read handler item)
      rw [List.foldl_cons]
      refine ⟨by rw [huser, hturn.user], ?_⟩
      rw [herror, hturn.error, hturn.lineno, List.idxOf?_cons]
      by_cases hzero : s.error = 0
      · by_cases hbad : item = .bad
        · simp [hzero, hbad]
        · have hother : (item == Item.bad) = false := beq_eq_false_iff_ne.mpr hbad
          cases rest.idxOf? Item.bad with
          | none => simp [hzero, hbad, hother]
          | some i =>
              simp [hzero, hbad, hother]
              omega
      · simp [hzero]

end Run

/-! ## Files -/

/-- What the reader files for these calls. -/
def Entries.ofCalls (calls : List Call) : Entries := calls.foldl (IniHandler.file valueHandler) {}

/-- The readings of a file's lines. -/
def FileReads (file : Bytes) (items : List Item) : Prop :=
  ReadsAll false (textLines (readLines iniMaxLine file)) items

theorem FileReads.ofFile_eq {file : Bytes} {items : List Item} (hreads : FileReads file items) :
    INIReader.ofFile (some file) =
      { error := firstBad items, entries := Entries.ofCalls (calls [] [] items) } := by
  have haccepts : ∀ user title name value, (valueHandler user title name value).1 :=
    fun _ _ _ _ => rfl
  obtain ⟨huser, herror⟩ := foldl_read haccepts { user := {} } items
  have hparse := iniParseStream_eq haccepts {} hreads
  rw [INIReader.ofFile, iniParse, iniParseFile]
  dsimp only
  rw [hparse, huser, herror, if_pos rfl, firstBad, Entries.ofCalls]
  simp only [Nat.zero_add, Nat.add_comm 1]

/-- Every file has one list of readings, which decides what the reader holds. -/
theorem ofFile_reads (file : Bytes) :
    (∃! items, FileReads file items) ∧
      ∀ items, FileReads file items → INIReader.ofFile (some file) =
        { error := firstBad items, entries := Entries.ofCalls (calls [] [] items) } := by
  obtain ⟨items, hitems⟩ := exists_readsAll false (textLines (readLines iniMaxLine file))
  refine ⟨⟨items, hitems, ?_⟩, fun _ hreads => hreads.ofFile_eq⟩
  intro others hothers
  exact hitems.unique hothers

/-! ## Bad lines -/

/-- A bad line made into an empty one. -/
def emptied (line : Bytes) (item : Item) : Bytes := if item = .bad then [newline] else line

def Item.quiet (item : Item) : Item := if item = .bad then .nothing else item

theorem ReadsAll.length_eq {continues : Bool} {lines : List Bytes} {items : List Item}
    (hreads : ReadsAll continues lines items) : items.length = lines.length := by
  induction hreads with
  | nil => rfl
  | cons _ _ ih => rw [List.length_cons, List.length_cons, ih]

/-- Nothing is continued differently behind a line that was bad. -/
theorem ReadsAll.emptied {continues : Bool} {lines : List Bytes} {items : List Item}
    (hreads : ReadsAll continues lines items) :
    ReadsAll continues (lines.zipWith Ini.emptied items) (items.map Item.quiet) := by
  induction hreads with
  | nil => exact .nil
  | @cons continues line lines item items hitem _ ih =>
      by_cases hbad : item = .bad
      · -- an empty line continues what a bad one does
        subst hbad
        exact .cons (.blank (List.forall_mem_singleton.mpr (by decide))) ih
      · have hquiet : item.quiet = item := if_neg hbad
        have hline : Ini.emptied line item = line := if_neg hbad
        rw [List.zipWith_cons_cons, List.map_cons, hquiet, hline]
        exact .cons hitem ih

theorem calls_quiet (title prevName : Bytes) (items : List Item) :
    calls title prevName (items.map Item.quiet) = calls title prevName items := by
  induction items generalizing title prevName with
  | nil => rfl
  | cons item rest ih =>
      cases item with
      | nothing => exact ih title prevName
      | bad => exact ih title prevName
      | header text => exact ih _ []
      | entry name value => exact congrArg (List.cons _) (ih title _)
      | continuation text => exact congrArg (List.cons _) (ih title prevName)

theorem firstBad_quiet (items : List Item) : firstBad (items.map Item.quiet) = 0 := by
  have hnone : Item.bad ∉ items.map Item.quiet := by
    intro hmem
    obtain ⟨item, -, hquiet⟩ := List.mem_map.mp hmem
    rw [Item.quiet] at hquiet
    split at hquiet
    · cases hquiet
    · contradiction
  rw [firstBad, List.idxOf?_eq_none_iff.mpr hnone]
  rfl

theorem textLines_emptied (buffers : List Bytes) (items : List Item) :
    textLines (buffers.zipWith emptied items) = (textLines buffers).zipWith emptied items := by
  have hstring : ∀ buffer item, cString (emptied buffer item) = emptied (cString buffer) item := by
    intro buffer item
    exact apply_ite cString _ _ _
  have hmark : ∀ line item, unmark (emptied line item) = emptied (unmark line) item := by
    intro line item
    exact apply_ite unmark _ _ _
  have hmap : ∀ buffers items, (List.zipWith emptied buffers items).map cString =
      (buffers.map cString).zipWith emptied items := by
    intro buffers items
    rw [List.map_zipWith, List.zipWith_map_left]
    simp only [hstring]
  cases buffers with
  | nil => rfl
  | cons buffer rest =>
      cases items with
      | nil => rfl
      | cons item items =>
          rw [List.zipWith_cons_cons, textLines, textLines, List.map_cons, List.map_cons, hmap,
            List.modifyHead_cons, List.modifyHead_cons, List.zipWith_cons_cons, hstring, hmark]

/-- With its bad lines made into empty ones a file is parsed without an error, and what the
reader holds is the same. -/
theorem bad_lines_add_nothing (file : Bytes) :
    ∃ items repaired, FileReads file items ∧
      Pieces iniMaxLine repaired ((readLines iniMaxLine file).zipWith emptied items) ∧
      INIReader.ofFile (some repaired) =
        { error := 0, entries := (INIReader.ofFile (some file)).entries } := by
  obtain ⟨items, hitems⟩ := exists_readsAll false (textLines (readLines iniMaxLine file))
  have hsize : 1 < iniMaxLine := by decide
  have hlength := hitems.length_eq
  have hothers : ∀ (buffers : List Bytes) (items : List Item), items.length = buffers.length →
      List.Forall₂ (fun buffer other => other = buffer ∨ other = [newline]) buffers
        (buffers.zipWith emptied items) := by
    intro buffers
    induction buffers with
    | nil => exact fun _ _ => .nil
    | cons buffer rest ih =>
        intro items hlength
        obtain ⟨item, items, rfl⟩ := List.exists_cons_of_length_eq_add_one hlength
        exact .cons (ite_eq_or_eq _ _ _).symm (ih items (Nat.succ.inj hlength))
  rw [textLines, List.length_modifyHead, List.length_map] at hlength
  have hread : Pieces iniMaxLine file (readLines iniMaxLine file) :=
    (readLines_eq_iff hsize).mp rfl
  -- a newline alone is a whole line, so the repaired file is cut where the file was
  have hpieces := hread.emptied hsize (hothers _ _ hlength)
  have hrepaired : FileReads ((readLines iniMaxLine file).zipWith emptied items).flatten
      (items.map Item.quiet) := by
    rw [FileReads, (readLines_eq_iff hsize).mpr hpieces, textLines_emptied]
    exact hitems.emptied
  refine ⟨items, _, hitems, hpieces, ?_⟩
  rw [hrepaired.ofFile_eq, FileReads.ofFile_eq hitems, calls_quiet, firstBad_quiet]
  rfl

end NyanSD.Ini
