import NyanSD.IniReader

/-!
# Writing what is read

A document is written with a line for every section and every pair, and an indented line
for every further line of a value. Its lines have to fit into the buffer, and titles and
names into their arrays. Then the reader answers with what was written.
-/

namespace NyanSD.Ini

open StdString TextLines

/-- A name and the lines of its value, the first one apart. -/
structure Pair where
  name : Bytes
  value : Bytes
  more : List Bytes := []

structure Section where
  title : Bytes
  pairs : List Pair

def Pair.lines (pair : Pair) : List Bytes :=
  (pair.name ++ equals :: pair.value) :: pair.more.map fun text => ' '.toUInt8 :: text

def Section.lines (part : Section) : List Bytes :=
  (bracket :: (part.title ++ [closing])) :: part.pairs.flatMap Pair.lines

def text (document : List Section) : Bytes :=
  (document.flatMap Section.lines).flatMap fun line => line ++ [newline]

/-- A line is one string and one piece. -/
structure Fits (line : Bytes) : Prop where
  newline : newline ∉ line
  zero : 0 ∉ line
  length : line.length + 1 < iniMaxLine

instance : DecidablePred Fits := fun line =>
  decidable_of_iff (TextLines.newline ∉ line ∧ 0 ∉ line ∧ line.length + 1 < iniMaxLine)
    ⟨fun ⟨hnewline, hzero, hlength⟩ => ⟨hnewline, hzero, hlength⟩,
      fun ⟨hnewline, hzero, hlength⟩ => ⟨hnewline, hzero, hlength⟩⟩

/-- What is written of a pair is read as one: only a value with a first line goes on, and only
under a name that is kept whole. -/
structure Pair.Written (pair : Pair) : Prop where
  name : Plain pair.name
  head : TightHead pair.value
  last : TightLast pair.value
  bare : Bare pair.value
  more : ∀ text ∈ pair.more, text ≠ [] ∧ Word text
  goes_on : pair.more ≠ [] → pair.value ≠ [] ∧ pair.name ≠ [] ∧ pair.name.length < maxName

instance : DecidablePred Pair.Written := fun pair =>
  decidable_of_iff (Plain pair.name ∧ TightHead pair.value ∧ TightLast pair.value ∧
      Bare pair.value ∧ (∀ text ∈ pair.more, text ≠ [] ∧ Word text) ∧
      (pair.more ≠ [] → pair.value ≠ [] ∧ pair.name ≠ [] ∧ pair.name.length < maxName))
    ⟨fun ⟨hname, hhead, hlast, hbare, hmore, hon⟩ => ⟨hname, hhead, hlast, hbare, hmore, hon⟩,
      fun ⟨hname, hhead, hlast, hbare, hmore, hon⟩ => ⟨hname, hhead, hlast, hbare, hmore, hon⟩⟩

structure Section.Written (part : Section) : Prop where
  closing : closing ∉ part.title
  bare : Bare part.title
  length : part.title.length < maxSection
  pairs : ∀ pair ∈ part.pairs, pair.Written
  lines : ∀ line ∈ part.lines, Fits line

instance : DecidablePred Section.Written := fun part =>
  decidable_of_iff (Ini.closing ∉ part.title ∧ Bare part.title ∧ part.title.length < maxSection ∧
      (∀ pair ∈ part.pairs, pair.Written) ∧ ∀ line ∈ part.lines, Fits line)
    ⟨fun ⟨hclosing, hbare, hlength, hpairs, hlines⟩ => ⟨hclosing, hbare, hlength, hpairs, hlines⟩,
      fun ⟨hclosing, hbare, hlength, hpairs, hlines⟩ => ⟨hclosing, hbare, hlength, hpairs, hlines⟩⟩

/-! ## The readings of the lines -/

def Pair.items (pair : Pair) : List Item :=
  .entry pair.name pair.value :: pair.more.map .continuation

def Section.items (part : Section) : List Item :=
  .header part.title :: part.pairs.flatMap Pair.items

/-- The lines say this wherever they start, each ended by a newline. -/
def Say (lines : List Bytes) (items : List Item) : Prop :=
  ∀ continues, ReadsAll continues (lines.map fun line => line ++ [newline]) items

theorem trails_newline : Trails [newline] :=
  .inl (List.forall_mem_singleton.mpr (by decide))

theorem say_nil : Say [] [] := fun _ => .nil

theorem Pair.Written.say {pair : Pair} (hpair : pair.Written) {lines : List Bytes}
    {items : List Item} (hsay : Say lines items) :
    Say (pair.lines ++ lines) (pair.items ++ items) := by
  have hempty : ∀ {text : Bytes}, text = [] → Blank text := fun htext =>
    htext ▸ List.forall_mem_nil _
  have hblank : Blank [newline] := List.forall_mem_singleton.mpr (by decide)
  have hentry : ∀ continues, Reads continues (pair.name ++ equals :: pair.value ++ [newline])
      (.entry pair.name pair.value) := by
    intro continues
    simpa using @Reads.entry continues [] pair.name [] [] pair.value [newline] equals
      (fun _ => rfl) (hempty rfl) hpair.name (hempty rfl) (fun _ => rfl) List.mem_cons_self
      (hempty rfl) hpair.head hpair.last hpair.bare trails_newline fun _ => hblank
  have hmore : ∀ rest : List Bytes, (∀ text ∈ rest, text ≠ [] ∧ Word text) →
      ∀ continues, (rest ≠ [] → continues = true) →
        ReadsAll continues
          ((rest.map (fun text => ' '.toUInt8 :: text) ++ lines).map fun line => line ++ [newline])
          (rest.map .continuation ++ items) := by
    intro rest
    induction rest with
    | nil => exact fun _ continues _ => hsay continues
    | cons text rest ih =>
        intro hrest continues hcontinues
        obtain ⟨⟨hne, htext⟩, hrest⟩ := List.forall_mem_cons.mp hrest
        have hon := hcontinues (List.cons_ne_nil _ _)
        have hline : Reads continues (' '.toUInt8 :: text ++ [newline]) (.continuation text) := by
          simpa using @Reads.continuation continues [' '.toUInt8] text [newline] hon
            (List.cons_ne_nil _ _) (List.forall_mem_singleton.mpr (by decide)) hne htext
            trails_newline
        exact .cons hline (ih hrest continues fun _ => hon)
  intro continues
  refine .cons (hentry continues) (hmore pair.more hpair.more _ ?_)
  intro hne
  exact decide_eq_true (hpair.goes_on hne).2.1

theorem Section.Written.say {part : Section} (hpart : part.Written) {lines : List Bytes}
    {items : List Item} (hsay : Say lines items) :
    Say (part.lines ++ lines) (part.items ++ items) := by
  have hheader : ∀ continues,
      Reads continues (bracket :: (part.title ++ [Ini.closing]) ++ [newline])
        (.header part.title) := by
    intro continues
    simpa using @Reads.header continues [] part.title [newline] (fun _ => rfl)
      (List.forall_mem_nil _) hpart.closing hpart.bare
  have hpairs : ∀ pairs : List Pair, (∀ pair ∈ pairs, pair.Written) →
      Say (pairs.flatMap Pair.lines ++ lines) (pairs.flatMap Pair.items ++ items) := by
    intro pairs
    induction pairs with
    | nil => exact fun _ => hsay
    | cons pair rest ih =>
        intro hpairs
        obtain ⟨hpair, hrest⟩ := List.forall_mem_cons.mp hpairs
        rw [List.flatMap_cons, List.flatMap_cons, List.append_assoc, List.append_assoc]
        exact hpair.say (ih hrest)
  intro continues
  exact .cons (hheader continues) (hpairs part.pairs hpart.pairs _)

theorem say_document {document : List Section} (hdocument : ∀ part ∈ document, part.Written) :
    Say (document.flatMap Section.lines) (document.flatMap Section.items) := by
  induction document with
  | nil => exact say_nil
  | cons part rest ih =>
      obtain ⟨hpart, hrest⟩ := List.forall_mem_cons.mp hdocument
      rw [List.flatMap_cons, List.flatMap_cons]
      exact hpart.say (ih hrest)

/-- A stream of lines that fit is read line by line. -/
theorem textLines_readLines {lines : List Bytes} (hlines : ∀ line ∈ lines, Fits line)
    (hfirst : ∀ line ∈ lines.head?, unmark (line ++ [newline]) = line ++ [newline]) :
    textLines (readLines iniMaxLine (lines.flatMap fun line => line ++ [newline])) =
      lines.map fun line => line ++ [newline] := by
  have hread := (readLines_eq_iff (by decide)).mpr
    (pieces_of_lines fun line hline => ⟨(hlines line hline).newline, (hlines line hline).length⟩)
  have hstrings : (lines.map fun line => line ++ [newline]).map cString =
      lines.map fun line => line ++ [newline] := by
    rw [List.map_map]
    apply List.map_congr_left
    intro line hline
    apply List.takeWhile_eq_self_iff.mpr
    intro c hc
    rcases List.mem_append.mp hc with hmem | hmem
    · have hzero : c ≠ 0 := fun heq => (hlines line hline).zero (heq ▸ hmem)
      simpa using hzero
    · rw [List.mem_singleton.mp hmem]
      decide
  rw [textLines, hread, hstrings]
  cases lines with
  | nil => rfl
  | cons line rest => rw [List.map_cons, List.modifyHead_cons, hfirst line rfl]

theorem fileReads_text {document : List Section} (hdocument : ∀ part ∈ document, part.Written) :
    FileReads (text document) (document.flatMap Section.items) := by
  have hlines : ∀ line ∈ document.flatMap Section.lines, Fits line := by
    intro line hline
    obtain ⟨part, hpart, hmem⟩ := List.mem_flatMap.mp hline
    exact (hdocument part hpart).lines line hmem
  rw [FileReads, text, textLines_readLines hlines]
  · exact say_document hdocument false
  -- a document starts with a bracket, not with a mark
  · cases document with
    | nil =>
        intro line hline
        cases hline
    | cons part rest =>
        intro line hline
        obtain rfl := Option.some.inj hline
        exact if_neg fun hmark => absurd (List.cons_prefix_cons.mp hmark).1 (by decide)

/-! ## The calls -/

def Pair.calls (title : Bytes) (pair : Pair) : List Call :=
  (pair.value :: pair.more).map (Call.mk title pair.name)

def Section.calls (part : Section) : List Call := part.pairs.flatMap (Pair.calls part.title)

theorem Pair.Written.calls_append {pair : Pair} (hpair : pair.Written) (title prevName : Bytes)
    (items : List Item) :
    Ini.calls title prevName (pair.items ++ items) =
      pair.calls title ++ Ini.calls title (strncpy0 pair.name maxName) items := by
  have hmore : ∀ (prevName : Bytes) (rest : List Bytes),
      Ini.calls title prevName (rest.map .continuation ++ items) =
        rest.map (Call.mk title prevName) ++ Ini.calls title prevName items := by
    intro prevName rest
    induction rest with
    | nil => rfl
    | cons text rest ih => exact congrArg (List.cons _) ih
  have hkept : pair.more.map (Call.mk title (strncpy0 pair.name maxName)) =
      pair.more.map (Call.mk title pair.name) := by
    by_cases hne : pair.more = []
    · rw [hne]
      rfl
    · have hlength := (hpair.goes_on hne).2.2
      rw [strncpy0, List.take_of_length_le (Nat.le_sub_one_of_lt hlength)]
  exact congrArg (List.cons _) ((hmore _ pair.more).trans (by rw [hkept]; rfl))

theorem calls_document {document : List Section} (hdocument : ∀ part ∈ document, part.Written)
    (title prevName : Bytes) :
    calls title prevName (document.flatMap Section.items) = document.flatMap Section.calls := by
  have hpairs : ∀ (pairs : List Pair), (∀ pair ∈ pairs, pair.Written) →
      ∀ (title : Bytes) (items : List Item) (result : List Call),
        (∀ prevName, calls title prevName items = result) → ∀ prevName,
          calls title prevName (pairs.flatMap Pair.items ++ items) =
            pairs.flatMap (Pair.calls title) ++ result := by
    intro pairs
    induction pairs with
    | nil => exact fun _ _ _ _ hitems => hitems
    | cons pair rest ih =>
        intro hpairs title items result hitems prevName
        obtain ⟨hpair, hrest⟩ := List.forall_mem_cons.mp hpairs
        rw [List.flatMap_cons, List.append_assoc, hpair.calls_append,
          ih hrest title items result hitems, List.flatMap_cons, List.append_assoc]
  induction document generalizing title prevName with
  | nil => rfl
  | cons part rest ih =>
      obtain ⟨hpart, hrest⟩ := List.forall_mem_cons.mp hdocument
      have htitle : strncpy0 part.title maxSection = part.title :=
        List.take_of_length_le (Nat.le_sub_one_of_lt hpart.length)
      rw [List.flatMap_cons, List.flatMap_cons]
      refine Eq.trans ?_ (hpairs part.pairs hpart.pairs part.title _ _ (ih hrest part.title) [])
      exact congrArg (fun title => calls title [] _) htitle

theorem firstBad_document (document : List Section) :
    firstBad (document.flatMap Section.items) = 0 := by
  have hnone : Item.bad ∉ document.flatMap Section.items := by
    simp [Section.items, Pair.items]
  rw [firstBad, List.idxOf?_eq_none_iff.mpr hnone]
  rfl

/-! ## The round trip -/

/-- No two sections and no two names in a section differ in case alone. -/
structure Distinct (document : List Section) : Prop where
  titles : document.Pairwise fun part other => lower part.title ≠ lower other.title
  names : ∀ part ∈ document, part.pairs.Pairwise fun pair other =>
    lower pair.name ≠ lower other.name

/-- Only one of the elements counts, where the others contribute nothing. -/
theorem flatMap_of_pairwise {α β κ : Type} {key : α → κ} {list : List α}
    (hlist : list.Pairwise fun a b => key a ≠ key b) {a : α} (ha : a ∈ list) {f : α → List β}
    (hf : ∀ b ∈ list, key b ≠ key a → f b = []) : list.flatMap f = f a := by
  obtain ⟨before, after, rfl⟩ := List.append_of_mem ha
  obtain ⟨-, hafter, hbefore⟩ := List.pairwise_append.mp hlist
  have hnone : before.flatMap f = [] := by
    apply List.flatMap_eq_nil_iff.mpr
    intro b hb
    exact hf b (List.mem_append_left _ hb) (hbefore b hb a List.mem_cons_self)
  have hrest : after.flatMap f = [] := by
    apply List.flatMap_eq_nil_iff.mpr
    intro b hb
    exact hf b (List.mem_append_right _ (List.mem_cons_of_mem _ hb))
      ((List.pairwise_cons.mp hafter).1 b hb).symm
  rw [List.flatMap_append, List.flatMap_cons, hnone, hrest, List.nil_append, List.append_nil]

/-- Under a section and a name the document says the values written there. -/
theorem said_document {document : List Section} (hdocument : ∀ part ∈ document, part.Written)
    (title name : Bytes) :
    said (document.flatMap Section.items) title name =
      document.flatMap fun part => part.pairs.flatMap fun pair =>
        if lower part.title = lower title ∧ lower pair.name = lower name
        then pair.value :: pair.more else [] := by
  rw [said, calls_document hdocument, List.filter_flatMap, List.map_flatMap]
  congr 1
  funext part
  rw [Section.calls, List.filter_flatMap, List.map_flatMap]
  congr 1
  funext pair
  by_cases hfor : lower part.title = lower title ∧ lower pair.name = lower name
  · have hall : ∀ call ∈ pair.calls part.title, decide (call.IsFor title name) = true := by
      intro call hcall
      obtain ⟨value, -, rfl⟩ := List.mem_map.mp hcall
      exact decide_eq_true hfor
    rw [if_pos hfor, List.filter_eq_self.mpr hall, Pair.calls, List.map_map]
    exact List.map_id _
  · have hnone : ∀ call ∈ pair.calls part.title, ¬ decide (call.IsFor title name) = true := by
      intro call hcall htrue
      obtain ⟨value, -, rfl⟩ := List.mem_map.mp hcall
      exact hfor (of_decide_eq_true htrue)
    rw [if_neg hfor, List.filter_eq_nil_iff.mpr hnone]
    rfl

theorem said_of_mem {document : List Section} (hdocument : ∀ part ∈ document, part.Written)
    (hdistinct : Distinct document) {part : Section} (hpart : part ∈ document) {pair : Pair}
    (hpair : pair ∈ part.pairs) {title name : Bytes} (htitle : lower title = lower part.title)
    (hname : lower name = lower pair.name) :
    said (document.flatMap Section.items) title name = pair.value :: pair.more := by
  rw [said_document hdocument, flatMap_of_pairwise hdistinct.titles hpart,
    flatMap_of_pairwise (hdistinct.names part hpart) hpair]
  · exact if_pos ⟨htitle.symm, hname.symm⟩
  · intro other _ hne
    apply if_neg
    rintro ⟨-, heq⟩
    exact hne (heq.trans hname)
  · intro other _ hne
    apply List.flatMap_eq_nil_iff.mpr
    intro pair _
    apply if_neg
    rintro ⟨heq, -⟩
    exact hne (heq.trans htitle)

/-- What is written of a pair is what the reader holds, in whatever case it is asked. -/
theorem values_text {document : List Section} (hdocument : ∀ part ∈ document, part.Written)
    (hdistinct : Distinct document) {part : Section} (hpart : part ∈ document) {pair : Pair}
    (hpair : pair ∈ part.pairs) {title name : Bytes} (htitle : lower title = lower part.title)
    (hname : lower name = lower pair.name) :
    (INIReader.ofFile (some (text document))).view.values title name =
      some ([newline].intercalate (pair.value :: pair.more)) := by
  have hwritten := (hdocument part hpart).pairs pair hpair
  have hfree : equals ∉ name := by
    intro hmem
    rw [← equals_mem_lower_iff, hname, equals_mem_lower_iff] at hmem
    exact hwritten.name.free equals hmem List.mem_cons_self
  rw [(fileReads_text hdocument).values_eq title hfree,
    said_of_mem hdocument hdistinct hpart hpair htitle hname, if_neg (List.cons_ne_nil _ _),
    join_eq_intercalate]
  by_cases hvalue : pair.value = []
  · have hmore : pair.more = [] := by
      by_contra hne
      exact (hwritten.goes_on hne).1 hvalue
    rw [hvalue, hmore]
    rfl
  · rw [List.dropWhile_cons_of_neg (by simpa using hvalue)]

/-- What the document does not say is not there. -/
theorem get_text_default {document : List Section} (hdocument : ∀ part ∈ document, part.Written)
    {title name : Bytes} (hname : equals ∉ name)
    (hnone : ∀ part ∈ document, lower part.title = lower title →
      ∀ pair ∈ part.pairs, lower pair.name ≠ lower name) (default : Bytes) :
    (INIReader.ofFile (some (text document))).view.get title name default = default := by
  have hsaid : said (document.flatMap Section.items) title name = [] := by
    rw [said_document hdocument]
    apply List.flatMap_eq_nil_iff.mpr
    intro part hpart
    apply List.flatMap_eq_nil_iff.mpr
    intro pair hpair
    apply if_neg
    rintro ⟨htitle, heq⟩
    exact hnone part hpart htitle pair hpair heq
  rw [get_eq (fileReads_text hdocument) title hname, if_pos hsaid]

/-- Sections without a pair are not reported. -/
theorem sections_text {document : List Section} (hdocument : ∀ part ∈ document, part.Written) :
    (INIReader.ofFile (some (text document))).view.sections.Pairwise (· < ·) ∧
      ∀ title, title ∈ (INIReader.ofFile (some (text document))).view.sections ↔
        ∃ part ∈ document, part.title = title ∧ part.pairs ≠ [] := by
  obtain ⟨hsorted, hmem⟩ := sections_eq (fileReads_text hdocument)
  refine ⟨hsorted, ?_⟩
  intro title
  rw [hmem, calls_document hdocument]
  constructor
  · rintro ⟨call, hcall, rfl⟩
    obtain ⟨part, hpart, hcall⟩ := List.mem_flatMap.mp hcall
    obtain ⟨pair, hpair, hcall⟩ := List.mem_flatMap.mp hcall
    obtain ⟨value, -, rfl⟩ := List.mem_map.mp hcall
    exact ⟨part, hpart, rfl, List.ne_nil_of_mem hpair⟩
  · rintro ⟨part, hpart, rfl, hne⟩
    obtain ⟨pair, rest, hpairs⟩ := List.exists_cons_of_ne_nil hne
    have hpair : pair ∈ part.pairs := hpairs ▸ List.mem_cons_self
    exact ⟨⟨part.title, pair.name, pair.value⟩, List.mem_flatMap.mpr ⟨part, hpart,
      List.mem_flatMap.mpr ⟨pair, hpair, List.mem_cons_self⟩⟩, rfl⟩

/-- No line of a document is bad. -/
theorem parseError_text {document : List Section} (hdocument : ∀ part ∈ document, part.Written) :
    (INIReader.ofFile (some (text document))).view.parseError = 0 := by
  rw [INIReader.view, (fileReads_text hdocument).ofFile_eq, firstBad_document]
  rfl

/-- A document whose sections and names differ in more than case is read as it was written:
without an error, every value under its section and name in whatever case they are asked for,
no other value, and the sections that have a value in their order. No name that is written has
an equals sign; one that is asked for is taken apart at its last one. -/
theorem document_round_trip {document : List Section}
    (hdocument : ∀ part ∈ document, part.Written) (hdistinct : Distinct document) :
    let reader := (INIReader.ofFile (some (text document))).view
    reader.parseError = 0 ∧
      (∀ part ∈ document, ∀ pair ∈ part.pairs, ∀ title name default,
        lower title = lower part.title → lower name = lower pair.name →
          reader.get title name default = [newline].intercalate (pair.value :: pair.more)) ∧
      (∀ title name default, equals ∉ name →
        (∀ part ∈ document, lower part.title = lower title →
          ∀ pair ∈ part.pairs, lower pair.name ≠ lower name) →
          reader.get title name default = default) ∧
      (∀ title front name default, reader.get title (front ++ equals :: name) default =
        reader.get (title ++ equals :: front) name default) ∧
      reader.sections.Pairwise (· < ·) ∧
      ∀ title, title ∈ reader.sections ↔
        ∃ part ∈ document, part.title = title ∧ part.pairs ≠ [] := by
  refine ⟨parseError_text hdocument, ?_, ?_, get_equals _, sections_text hdocument⟩
  · intro part hpart pair hpair title name default htitle hname
    rw [Daemon.INIReader.get, values_text hdocument hdistinct hpart hpair htitle hname,
      Option.getD_some]
  · intro title name default hname hnone
    exact get_text_default hdocument hname hnone default

/-- Two sections, one of which has a value of two lines. -/
def sample : List Section :=
  [⟨ascii ['w', 'e', 'b'], [⟨ascii ['n', 'a', 'm', 'e'], ascii ['h', 't', 't', 'p'], []⟩,
    ⟨ascii ['n', 'o', 't', 'e'], ascii ['a', ';', 'b'], [ascii ['[', 'c', ' ', 'd']]⟩]⟩,
    ⟨ascii ['D', 'B'], [⟨ascii ['n', 'a', 'm', 'e'], [], []⟩]⟩]

/-- A name is asked for in another case, and one with an equals sign that is nowhere. -/
theorem document_round_trip_sample :
    let reader := (INIReader.ofFile (some (text sample))).view
    reader.get (ascii ['W', 'e', 'b']) (ascii ['N', 'O', 'T', 'E']) [] =
        ascii ['a', ';', 'b'] ++ newline :: ascii ['[', 'c', ' ', 'd'] ∧
      reader.get (ascii ['D', 'B']) (ascii ['a', '=', 'b']) (ascii ['?']) = ascii ['?'] := by
  have hdistinct : Distinct sample := ⟨by decide, by decide⟩
  obtain ⟨-, hvalues, hdefault, hequals, -⟩ := @document_round_trip sample (by decide) hdistinct
  constructor
  · exact hvalues _ List.mem_cons_self _ (List.mem_cons_of_mem _ List.mem_cons_self) _ _ []
      (by decide) (by decide)
  · rw [show ascii ['a', '=', 'b'] = ascii ['a'] ++ equals :: ascii ['b'] from rfl, hequals]
    exact hdefault _ _ _ (by decide) (by decide)

end NyanSD.Ini
