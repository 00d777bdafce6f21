import NyanSD.Foundation.CommandLine
import NyanSD.Foundation.StdString

/-!
# Sarge

The argument parser of the browser. The names of the arguments are links to the records of
the arguments, so both names of one argument reach the same record. Reading goes through the
entries with a value that may be expected and the link that it belongs to.
-/

namespace NyanSD

open CommandLine (Word Cluster Item TakesValue Reads)

structure Argument where
  argShort : Bytes := []
  argLong : Bytes := []
  description : Bytes := []
  hasValue : Bool := false
  value : Bytes := []
  parsed : Bool := false
deriving DecidableEq, Repr

/-- The links in `argNames` are positions in `args`. -/
structure Sarge where
  args : List Argument := []
  argNames : List (Bytes × Nat) := []
  parsed : Bool := false
  flagCounter : Nat := 0
  execName : Bytes := []
  textArguments : List Bytes := []
deriving DecidableEq, Repr

namespace Sarge

/-- `argNames.insert`: a name that has a link keeps it. -/
def insertName (s : Sarge) (name : Bytes) (arg : Nat) : Sarge :=
  if (s.argNames.lookup name).isSome then s
  else { s with argNames := s.argNames ++ [(name, arg)] }

/-- Sets up the link of a name that is not empty. -/
def link (s : Sarge) (name : Bytes) (arg : Nat) : Sarge :=
  if name.isEmpty then s else s.insertName name arg

def setArgument (s : Sarge) (argShort argLong desc : Bytes) (hasVal : Bool) : Sarge :=
  let arg := s.args.length
  let s : Sarge := { s with
    args := s.args ++ [{ argShort, argLong, description := desc, hasValue := hasVal }] }
  (s.link argShort arg).link argLong arg

def setArguments (s : Sarge) (args : List Argument) : Sarge :=
  args.foldl (fun s a => s.setArgument a.argShort a.argLong a.description a.hasValue) s

/-- `flag_it->second->hasValue`. -/
def hasValue (s : Sarge) (arg : Nat) : Bool := s.args[arg]?.any (·.hasValue)

/-- Marks an argument as found and counts the mention. -/
def found (s : Sarge) (arg : Nat) : Sarge :=
  { s with
    args := s.args.modify arg fun a => { a with parsed := true }
    flagCounter := s.flagCounter + 1 }

/-- `flag_it->second->value = entry`. -/
def setValue (s : Sarge) (arg : Nat) (entry : Bytes) : Sarge :=
  { s with args := s.args.modify arg fun a => { a with value := entry } }

def pushText (s : Sarge) (entry : Bytes) : Sarge :=
  { s with textArguments := s.textArguments ++ [entry] }

end Sarge

/-- What is written to `std::cerr`. -/
inductive SargeReport
  | flagAfterText
  | longNotFound (entry : Bytes)
  | shortNotFound (k : UInt8)
  | valueNeeded (k : UInt8)
deriving DecidableEq, Repr

def SargeReport.message : SargeReport → Bytes
  | flagAfterText => ascii "Flags not allowed after text arguments.".toList
  | longNotFound entry => ascii "Long flag ".toList ++ entry ++ ascii " wasn't found.".toList
  | shortNotFound k => ascii "Short flag ".toList ++ [k] ++ ascii " wasn't found.".toList
  | valueNeeded k =>
      ascii "Flag ".toList ++ [k] ++ ascii " needs to be followed by a value string.".toList

/-- The variables of `parseArguments`. No link is the end of the map. -/
structure SargeParse where
  sarge : Sarge
  expectValue : Bool := false
  flagIt : Option Nat := none
  cerr : List SargeReport := []

namespace SargeParse

def dash : UInt8 := '-'.toUInt8

def report (st : SargeParse) (message : SargeReport) : SargeParse :=
  { st with cerr := st.cerr ++ [message] }

/-- A flag that was found. -/
def follow (st : SargeParse) (arg : Nat) : SargeParse :=
  { st with sarge := st.sarge.found arg, flagIt := some arg }

/-- Copies the value. -/
def copyValue (st : SargeParse) (entry : Bytes) : SargeParse :=
  { st with
    sarge := (st.flagIt.map fun arg => st.sarge.setValue arg entry).getD st.sarge
    expectValue := false }

/-- The check in front of a flag, which does not reject it. -/
def checkOrder (st : SargeParse) : SargeParse :=
  if st.sarge.textArguments.length > 0 then st.report .flagAfterText else st

/-- The long form, without its dashes. -/
def parseLong (st : SargeParse) (entry : Bytes) : Bool × SargeParse :=
  match st.sarge.argNames.lookup entry with
  | none => (false, { st with flagIt := none }.report (.longNotFound entry))
  | some arg =>
      let st := st.follow arg
      (true, if st.sarge.hasValue arg then { st with expectValue := true } else st)

/-- The short form from a character on. -/
def parseShort (st : SargeParse) : Bytes → Bool × SargeParse
  | [] => (true, st)
  | k :: entry =>
      match st.sarge.argNames.lookup [k] with
      | none => (false, { st with flagIt := none }.report (.shortNotFound k))
      | some arg =>
          let st := st.follow arg
          if st.sarge.hasValue arg then
            if entry ≠ [] then (false, st.report (.valueNeeded k))
            else parseShort { st with expectValue := true } entry
          else parseShort st entry

/-- One turn of the loop: whether it goes on. -/
def parseEntry (st : SargeParse) (entry : Bytes) : Bool × SargeParse :=
  if st.expectValue then (true, st.copyValue entry)
  else if entry.take 1 = [dash] then
    if entry.take 2 = [dash, dash] then st.checkOrder.parseLong (entry.drop 2)
    else st.checkOrder.parseShort (entry.drop 1)
  else (true, { st with sarge := st.sarge.pushText entry })

/-- The loop, which ends with the last entry or with one that is rejected. -/
def parseEntries (st : SargeParse) : List Bytes → Bool × SargeParse
  | [] => (true, st)
  | entry :: entries =>
      match st.parseEntry entry with
      | (true, next) => next.parseEntries entries
      | (false, next) => (false, next)

end SargeParse

namespace Sarge

/-- The loop on the arguments behind the name of the executable. -/
def parseLoop (s : Sarge) (execName : Bytes) (args : List Bytes) : Bool × SargeParse :=
  SargeParse.parseEntries { sarge := { s with execName } } args

/-- The return value, and the object behind the call. -/
def parseArguments (s : Sarge) (execName : Bytes) (args : List Bytes) : Bool × Sarge :=
  match s.parseLoop execName args with
  | (true, st) => (true, { st.sarge with parsed := true })
  | (false, st) => (false, st.sarge)

/-- The record behind a name, where it was found on the command line. -/
def parsedArgument (s : Sarge) (argFlag : Bytes) : Option Argument :=
  if s.parsed then
    ((s.argNames.lookup argFlag).bind fun arg => s.args[arg]?).filter (·.parsed)
  else none

/-- The return value and `arg_value`. -/
def getFlag (s : Sarge) (argFlag argValue : Bytes) : Bool × Bytes :=
  match s.parsedArgument argFlag with
  | none => (false, argValue)
  | some a => (true, if a.hasValue then a.value else argValue)

def «exists» (s : Sarge) (argFlag : Bytes) : Bool := (s.parsedArgument argFlag).isSome

/-- The return value and `value`. -/
def getTextArgument (s : Sarge) (index : UInt32) (value : Bytes) : Bool × Bytes :=
  if h : index.toNat < s.textArguments.length then (true, s.textArguments[index.toNat])
  else (false, value)

def flagCount (s : Sarge) : Nat := s.flagCounter

def executableName (s : Sarge) : Bytes := s.execName

/-! ## The names that are known -/

/-- Whether a name has a link, and then whether its flag takes a value. -/
def takesValue (s : Sarge) (name : Bytes) : Option Bool := (s.argNames.lookup name).map s.hasValue

theorem hasValue_modify {s s' : Sarge} {arg : Nat} {f : Argument → Argument}
    (hargs : s'.args = s.args.modify arg f) (hkept : ∀ a, (f a).hasValue = a.hasValue) :
    s'.hasValue = s.hasValue := by
  funext i
  simp only [hasValue, hargs, List.getElem?_modify]
  cases s.args[i]? with
  | none => rfl
  | some a =>
      split
      next => exact hkept a
      next => rfl

theorem hasValue_found (s : Sarge) (arg : Nat) : (s.found arg).hasValue = s.hasValue :=
  hasValue_modify rfl fun _ => rfl

theorem hasValue_setValue (s : Sarge) (arg : Nat) (entry : Bytes) :
    (s.setValue arg entry).hasValue = s.hasValue := hasValue_modify rfl fun _ => rfl

theorem takesValue_found (s : Sarge) (arg : Nat) :
    (s.found arg).takesValue = s.takesValue := by
  funext name
  rw [takesValue, hasValue_found]
  rfl

theorem takesValue_setValue (s : Sarge) (arg : Nat) (entry : Bytes) :
    (s.setValue arg entry).takesValue = s.takesValue := by
  funext name
  rw [takesValue, hasValue_setValue]
  rfl

theorem takesValue_pushText (s : Sarge) (entry : Bytes) :
    (s.pushText entry).takesValue = s.takesValue := rfl

theorem takesValue_of_lookup {s : Sarge} {name : Bytes} {arg : Nat}
    (hlookup : s.argNames.lookup name = some arg) :
    s.takesValue name = some (s.hasValue arg) := by
  rw [takesValue, hlookup]
  rfl

theorem takesValue_eq_none_iff (s : Sarge) (name : Bytes) :
    s.takesValue name = none ↔ s.argNames.lookup name = none := Option.map_eq_none_iff

/-! ## What a word of a reading does -/

/-- A name is mentioned. -/
def mention (s : Sarge) (name : Bytes) : Sarge :=
  ((s.argNames.lookup name).map s.found).getD s

/-- A name and the value that belongs to it. -/
def bind (s : Sarge) (binding : Bytes × Bytes) : Sarge :=
  ((s.argNames.lookup binding.1).map fun arg => s.setValue arg binding.2).getD s

/-- What is recorded for a word: the mentions, the value and the text of it. -/
def record (s : Sarge) (word : Word UInt8) : Sarge :=
  let s := word.mentions.foldl mention s
  let s := word.binding.toList.foldl bind s
  word.texts.foldl pushText s

/-- What marking an argument does not change. -/
theorem mention_same {γ : Type} (part : Sarge → γ)
    (hfound : ∀ s arg, part (s.found arg) = part s) (s : Sarge) (name : Bytes) :
    part (s.mention name) = part s := by
  unfold mention
  cases s.argNames.lookup name with
  | none => rfl
  | some arg => exact hfound s arg

/-- What storing a value does not change. -/
theorem bind_same {γ : Type} (part : Sarge → γ)
    (hvalue : ∀ s arg value, part (s.setValue arg value) = part s) (s : Sarge)
    (binding : Bytes × Bytes) : part (s.bind binding) = part s := by
  unfold bind
  cases s.argNames.lookup binding.1 with
  | none => rfl
  | some arg => exact hvalue s arg binding.2

/-- What no step of a fold changes. -/
theorem foldl_same {β γ : Type} {f : Sarge → β → Sarge} (part : Sarge → γ)
    (hstep : ∀ s b, part (f s b) = part s) (s : Sarge) (items : List β) :
    part (items.foldl f s) = part s := by
  induction items generalizing s with
  | nil => rfl
  | cons b items ih => rw [List.foldl_cons, ih, hstep]

/-- What no word changes. -/
theorem record_same {γ : Type} (part : Sarge → γ)
    (hfound : ∀ s arg, part (s.found arg) = part s)
    (hvalue : ∀ s arg value, part (s.setValue arg value) = part s)
    (htext : ∀ s entry, part (s.pushText entry) = part s) (s : Sarge) (word : Word UInt8) :
    part (s.record word) = part s := by
  dsimp only [record]
  rw [foldl_same part htext, foldl_same part (bind_same part hvalue),
    foldl_same part (mention_same part hfound)]

theorem takesValue_mention (s : Sarge) (name : Bytes) :
    (s.mention name).takesValue = s.takesValue := mention_same takesValue takesValue_found s name

theorem takesValue_foldl_mention (s : Sarge) (names : List Bytes) :
    (names.foldl mention s).takesValue = s.takesValue :=
  foldl_same takesValue takesValue_mention s names

theorem takesValue_record (s : Sarge) (word : Word UInt8) :
    (s.record word).takesValue = s.takesValue :=
  record_same takesValue takesValue_found takesValue_setValue takesValue_pushText s word

theorem record_plain (s : Sarge) (entry : Bytes) (names : List Bytes) :
    s.record (.item entry names none) = names.foldl mention s := by
  dsimp only [record, Word.mentions, Word.texts, Word.binding]
  cases names.getLast? with
  | none => rfl
  | some name => rfl

theorem record_valued (s : Sarge) (entry : Bytes) {names : List Bytes} {name : Bytes}
    (hlast : names.getLast? = some name) (value : Bytes) :
    s.record (.item entry names (some value)) = (names.foldl mention s).bind (name, value) := by
  dsimp only [record, Word.mentions, Word.texts, Word.binding]
  rw [hlast]
  rfl

end Sarge

namespace SargeParse

/-! ## Flags -/

/-- The parser behind a mention. -/
def mention (st : SargeParse) (name : Bytes) : SargeParse :=
  match st.sarge.argNames.lookup name with
  | none => st
  | some arg => { st.follow arg with expectValue := st.sarge.hasValue arg }

theorem mention_of_lookup {st : SargeParse} {name : Bytes} {arg : Nat}
    (hlookup : st.sarge.argNames.lookup name = some arg) :
    st.mention name = { st.follow arg with expectValue := st.sarge.hasValue arg } := by
  rw [mention, hlookup]

theorem hasValue_follow (st : SargeParse) (arg i : Nat) :
    (st.follow arg).sarge.hasValue i = st.sarge.hasValue i :=
  congrFun (Sarge.hasValue_found st.sarge arg) i

theorem takesValue_follow (st : SargeParse) (arg : Nat) :
    (st.follow arg).sarge.takesValue = st.sarge.takesValue := Sarge.takesValue_found st.sarge arg

theorem expectValue_follow {st : SargeParse} (hexpect : st.expectValue = false) (arg : Nat) :
    { st.follow arg with expectValue := false } = st.follow arg := by
  rw [← hexpect]
  rfl

theorem sarge_mention (st : SargeParse) (name : Bytes) :
    (st.mention name).sarge = st.sarge.mention name := by
  unfold mention Sarge.mention
  cases st.sarge.argNames.lookup name with
  | none => rfl
  | some arg => rfl

theorem sarge_foldl_mention (st : SargeParse) (names : List Bytes) :
    (names.foldl mention st).sarge = names.foldl Sarge.mention st.sarge :=
  (List.foldl_hom SargeParse.sarge fun st name => (sarge_mention st name).symm).symm

theorem cerr_foldl_mention (st : SargeParse) (names : List Bytes) :
    (names.foldl mention st).cerr = st.cerr := by
  induction names generalizing st with
  | nil => rfl
  | cons name names ih =>
      rw [List.foldl_cons, ih, mention]
      cases st.sarge.argNames.lookup name with
      | none => rfl
      | some arg => rfl

theorem parseLong_cases {st : SargeParse} (hexpect : st.expectValue = false) (name : Bytes) :
    ((st.sarge.takesValue name).isSome ∧ st.parseLong name = (true, st.mention name)) ∨
      (st.sarge.takesValue name = none ∧ (st.parseLong name).1 = false) := by
  rw [parseLong]
  cases hlookup : st.sarge.argNames.lookup name with
  | none => exact .inr ⟨(Sarge.takesValue_eq_none_iff st.sarge name).mpr hlookup, rfl⟩
  | some arg =>
      dsimp only
      rw [Sarge.takesValue_of_lookup hlookup, hasValue_follow, mention_of_lookup hlookup]
      refine .inl ⟨rfl, ?_⟩
      cases st.sarge.hasValue arg with
      | true => rfl
      | false => rw [expectValue_follow hexpect, if_neg Bool.false_ne_true]

theorem parseShort_cases {st : SargeParse} (hexpect : st.expectValue = false) (chars : Bytes) :
    (Cluster st.sarge.takesValue chars ∧
        st.parseShort chars = (true, (chars.map fun c => [c]).foldl mention st)) ∨
      (¬ Cluster st.sarge.takesValue chars ∧ (st.parseShort chars).1 = false) := by
  induction chars generalizing st with
  | nil => exact .inl ⟨CommandLine.cluster_nil, rfl⟩
  | cons k chars ih =>
      rw [parseShort, CommandLine.cluster_cons_iff, List.map_cons, List.foldl_cons]
      cases hlookup : st.sarge.argNames.lookup [k] with
      | none =>
          have hunknown := (Sarge.takesValue_eq_none_iff st.sarge [k]).mpr hlookup
          refine .inr ⟨?_, rfl⟩
          rintro ⟨hknown, -⟩
          rw [hunknown] at hknown
          cases hknown
      | some arg =>
          dsimp only
          rw [Sarge.takesValue_of_lookup hlookup, hasValue_follow, mention_of_lookup hlookup]
          cases hvalue : st.sarge.hasValue arg with
          | true =>
              cases chars with
              | nil => exact .inl ⟨⟨rfl, fun hne => absurd rfl hne, CommandLine.cluster_nil⟩, rfl⟩
              | cons d chars =>
                  refine .inr ⟨?_, rfl⟩
                  rintro ⟨-, hlast, -⟩
                  exact hlast (List.cons_ne_nil d chars) rfl
          | false =>
              have hplain : (some false : Option Bool) ≠ some true := by decide
              rw [expectValue_follow hexpect, if_neg Bool.false_ne_true, ← takesValue_follow st arg]
              obtain ⟨hcluster, heq⟩ | ⟨hcluster, heq⟩ := @ih (st.follow arg) hexpect
              · exact .inl ⟨⟨rfl, fun _ => hplain, hcluster⟩, heq⟩
              · exact .inr ⟨fun hall => hcluster hall.2.2, heq⟩

theorem expectValue_checkOrder (st : SargeParse) :
    st.checkOrder.expectValue = st.expectValue := by
  unfold checkOrder
  split <;> rfl

theorem sarge_checkOrder (st : SargeParse) : st.checkOrder.sarge = st.sarge := by
  unfold checkOrder
  split <;> rfl

/-! ## Entries -/

theorem take_one_eq_iff (entry : Bytes) (c : UInt8) :
    entry.take 1 = [c] ↔ entry.head? = some c := by
  cases entry with
  | nil => simp
  | cons d entry => simp

theorem parseEntry_text {st : SargeParse} (hexpect : st.expectValue = false) {entry : Bytes}
    (htext : entry.head? ≠ some dash) :
    st.parseEntry entry = (true, { st with sarge := st.sarge.pushText entry }) := by
  have htake : entry.take 1 ≠ [dash] := (take_one_eq_iff entry dash).not.mpr htext
  rw [parseEntry, hexpect, if_neg Bool.false_ne_true, if_neg htake]

/-- An entry that begins with a dash mentions flags or is rejected. -/
theorem parseEntry_cases {st : SargeParse} (hexpect : st.expectValue = false) {entry : Bytes}
    (hdash : entry.head? = some dash) :
    (∃ names, Item dash st.sarge.takesValue entry names ∧
        st.parseEntry entry = (true, names.foldl mention st.checkOrder)) ∨
      ((∀ names, ¬ Item dash st.sarge.takesValue entry names) ∧
        (st.parseEntry entry).1 = false) := by
  obtain ⟨chars, rfl⟩ := List.head?_eq_some_iff.mp hdash
  have hexpect' : st.checkOrder.expectValue = false := (expectValue_checkOrder st).trans hexpect
  rw [parseEntry, hexpect, if_neg Bool.false_ne_true, if_pos ((take_one_eq_iff _ _).mpr rfl),
    ← sarge_checkOrder st]
  by_cases hlong : chars.head? = some dash
  · obtain ⟨name, rfl⟩ := List.head?_eq_some_iff.mp hlong
    rw [if_pos (show (dash :: dash :: name).take 2 = [dash, dash] from rfl)]
    simp only [CommandLine.item_long_iff]
    obtain ⟨hknown, heq⟩ | ⟨hunknown, heq⟩ := parseLong_cases hexpect' name
    · exact .inl ⟨[name], ⟨hknown, rfl⟩, heq⟩
    · refine .inr ⟨?_, heq⟩
      rintro names ⟨hknown, -⟩
      rw [hunknown] at hknown
      cases hknown
  · have htake : (dash :: chars).take 2 ≠ [dash, dash] := by
      rw [List.take_succ_cons, ne_eq, List.cons.injEq, take_one_eq_iff]
      exact fun hboth => hlong hboth.2
    rw [if_neg htake]
    simp only [CommandLine.item_short_iff hlong]
    obtain ⟨hcluster, heq⟩ | ⟨hcluster, heq⟩ := parseShort_cases hexpect' chars
    · exact .inl ⟨_, ⟨hcluster, rfl⟩, heq⟩
    · exact .inr ⟨fun names hitem => hcluster hitem.1, heq⟩

/-! ## The loop -/

theorem takesValue_foldl_mention (st : SargeParse) (names : List Bytes) :
    (names.foldl mention st).sarge.takesValue = st.sarge.takesValue := by
  rw [sarge_foldl_mention, Sarge.takesValue_foldl_mention]

/-- The last mention is followed to its argument. -/
theorem foldl_mention_concat {st : SargeParse} (front : List Bytes) {name : Bytes}
    (hknown : (st.sarge.takesValue name).isSome) :
    ∃ arg, (front.foldl mention st).sarge.argNames.lookup name = some arg ∧
      st.sarge.takesValue name = some ((front.foldl mention st).sarge.hasValue arg) ∧
      (front ++ [name]).foldl mention st =
        { (front.foldl mention st).follow arg with
          expectValue := (front.foldl mention st).sarge.hasValue arg } := by
  rw [← takesValue_foldl_mention st front] at hknown ⊢
  cases hlookup : (front.foldl mention st).sarge.argNames.lookup name with
  | none =>
      rw [(Sarge.takesValue_eq_none_iff _ name).mpr hlookup] at hknown
      cases hknown
  | some arg =>
      refine ⟨arg, rfl, Sarge.takesValue_of_lookup hlookup, ?_⟩
      rw [List.foldl_append, List.foldl_cons, List.foldl_nil, mention_of_lookup hlookup]

/-- Behind the last mention a value is expected when its flag takes one. -/
theorem expectValue_foldl_mention {st : SargeParse} (hexpect : st.expectValue = false)
    {names : List Bytes} (hknown : ∀ name ∈ names, (st.sarge.takesValue name).isSome) :
    (names.foldl mention st).expectValue = true ↔ TakesValue st.sarge.takesValue names := by
  obtain rfl | ⟨front, name, rfl⟩ := List.eq_nil_or_concat' names
  · rw [List.foldl_nil, hexpect]
    constructor
    · intro htrue
      cases htrue
    · intro hvalue
      cases hvalue
  · obtain ⟨arg, -, hvalue, heq⟩ :=
      foldl_mention_concat front (hknown name (List.mem_append_right _ List.mem_cons_self))
    rw [heq, TakesValue, List.getLast?_concat, Option.bind_some, hvalue, Option.some_inj]

/-- The value that is expected goes to the last mention. -/
theorem sarge_copyValue_foldl_mention {st : SargeParse} {names : List Bytes} {name : Bytes}
    (hlast : names.getLast? = some name) (hknown : (st.sarge.takesValue name).isSome)
    (value : Bytes) :
    ((names.foldl mention st).copyValue value).sarge =
      (names.foldl Sarge.mention st.sarge).bind (name, value) := by
  obtain ⟨front, rfl⟩ := List.getLast?_eq_some_iff.mp hlast
  obtain ⟨arg, hlookup, -, heq⟩ := foldl_mention_concat front hknown
  have hlink : ((front.foldl mention st).follow arg).sarge.argNames.lookup name = some arg :=
    hlookup
  have hsarge := sarge_foldl_mention st (front ++ [name])
  rw [heq] at hsarge
  rw [heq, ← hsarge, copyValue, Sarge.bind]
  dsimp only
  rw [hlink]
  rfl

/-- What is known behind an item: its mentions and reports, whether a value is expected, and
where it goes. -/
theorem parseEntry_item {st : SargeParse} (hexpect : st.expectValue = false) {entry : Bytes}
    {names : List Bytes} (hitem : Item dash st.sarge.takesValue entry names) :
    ∃ next, st.parseEntry entry = (true, next) ∧
      next.sarge = names.foldl Sarge.mention st.sarge ∧
      next.cerr = st.checkOrder.cerr ∧
      (next.expectValue = true ↔ TakesValue st.sarge.takesValue names) ∧
      ∀ name value, names.getLast? = some name →
        (next.copyValue value).sarge =
          (names.foldl Sarge.mention st.sarge).bind (name, value) := by
  obtain ⟨names', hitem', heq⟩ | ⟨hnone, -⟩ := parseEntry_cases hexpect hitem.head?_eq
  · rw [← hitem.unique hitem'] at heq
    have hknown := hitem.known
    rw [← sarge_checkOrder st] at hknown ⊢
    refine ⟨_, heq, sarge_foldl_mention _ names, cerr_foldl_mention _ names, ?_, ?_⟩
    · exact expectValue_foldl_mention ((expectValue_checkOrder st).trans hexpect) hknown
    · intro name value hlast
      exact sarge_copyValue_foldl_mention hlast (hknown name (List.mem_of_getLast? hlast)) value
  · exact absurd hitem (hnone names)

/-- The loop goes on behind an item that takes no value. -/
theorem parseEntries_plain {st : SargeParse} (hexpect : st.expectValue = false) {entry : Bytes}
    {names : List Bytes} (hitem : Item dash st.sarge.takesValue entry names)
    (hplain : ¬ TakesValue st.sarge.takesValue names) :
    ∃ next : SargeParse,
      (∀ rest, st.parseEntries (entry :: rest) = next.parseEntries rest) ∧
      next.expectValue = false ∧ next.sarge = st.sarge.record (.item entry names none) ∧
      next.cerr = st.checkOrder.cerr := by
  obtain ⟨next, hentry, hsarge, hcerr, hnext, -⟩ := parseEntry_item hexpect hitem
  refine ⟨next, ?_, Bool.eq_false_iff.mpr (hnext.not.mpr hplain), ?_, hcerr⟩
  · intro rest
    rw [parseEntries, hentry]
  · rw [Sarge.record_plain, hsarge]

/-- The loop goes on behind an item and its value. -/
theorem parseEntries_valued {st : SargeParse} (hexpect : st.expectValue = false) {entry : Bytes}
    {names : List Bytes} (hitem : Item dash st.sarge.takesValue entry names)
    (hvalue : TakesValue st.sarge.takesValue names) (value : Bytes) :
    ∃ next : SargeParse,
      (∀ rest, st.parseEntries (entry :: value :: rest) = next.parseEntries rest) ∧
      next.expectValue = false ∧ next.sarge = st.sarge.record (.item entry names (some value)) ∧
      next.cerr = st.checkOrder.cerr := by
  obtain ⟨next, hentry, -, hcerr, hnext, hcopy⟩ := parseEntry_item hexpect hitem
  obtain ⟨name, hlast, -⟩ := hvalue.exists_last
  refine ⟨next.copyValue value, ?_, rfl, ?_, hcerr⟩
  · intro rest
    rw [parseEntries, hentry]
    dsimp only
    rw [parseEntries, parseEntry, if_pos (hnext.mpr hvalue)]
  · rw [Sarge.record_valued st.sarge entry hlast value, hcopy name value hlast]

/-- The loop ends behind an item whose value is missing. -/
theorem parseEntries_unfinished {st : SargeParse} (hexpect : st.expectValue = false)
    {entry : Bytes} {names : List Bytes} (hitem : Item dash st.sarge.takesValue entry names) :
    ∃ next, st.parseEntries [entry] = (true, next) ∧
      next.sarge = st.sarge.record (.item entry names none) ∧
      next.cerr = st.checkOrder.cerr := by
  obtain ⟨next, hentry, hsarge, hcerr, -⟩ := parseEntry_item hexpect hitem
  refine ⟨next, ?_, ?_, hcerr⟩
  · rw [parseEntries, hentry]
    rfl
  · rw [Sarge.record_plain, hsarge]

/-- An argument list that has a reading is accepted, and what is recorded is said by it. -/
theorem parseEntries_of_reads {flags : Bytes → Option Bool} {args : List Bytes}
    {words : List (Word UInt8)} (hreads : Reads dash flags args words) (st : SargeParse)
    (hexpect : st.expectValue = false) (hflags : st.sarge.takesValue = flags) :
    (st.parseEntries args).1 = true ∧
      (st.parseEntries args).2.sarge = words.foldl Sarge.record st.sarge := by
  induction hreads generalizing st with
  | done => exact ⟨rfl, rfl⟩
  | text htext hrest ih =>
      rw [parseEntries, parseEntry_text hexpect htext]
      exact ih _ hexpect hflags
  | plain hitem hplain hrest ih =>
      rw [← hflags] at hitem hplain
      obtain ⟨next, hnext, hexpect', hsarge, -⟩ := parseEntries_plain hexpect hitem hplain
      rw [hnext, List.foldl_cons, ← hsarge]
      apply ih next hexpect'
      rw [hsarge, Sarge.takesValue_record, hflags]
  | @valued entry names value rest words hitem hvalue hrest ih =>
      rw [← hflags] at hitem hvalue
      obtain ⟨next, hnext, hexpect', hsarge, -⟩ := parseEntries_valued hexpect hitem hvalue value
      rw [hnext, List.foldl_cons, ← hsarge]
      apply ih next hexpect'
      rw [hsarge, Sarge.takesValue_record, hflags]
  | unfinished hitem hvalue =>
      rw [← hflags] at hitem
      obtain ⟨next, hnext, hsarge, -⟩ := parseEntries_unfinished hexpect hitem
      rw [hnext, List.foldl_cons, ← hsarge]
      exact ⟨rfl, rfl⟩

theorem takesValue_copyValue (st : SargeParse) (value : Bytes) :
    (st.copyValue value).sarge.takesValue = st.sarge.takesValue := by
  unfold copyValue
  cases st.flagIt with
  | none => rfl
  | some arg => exact Sarge.takesValue_setValue st.sarge arg value

/-- What is accepted has a reading, behind a value that may be expected. -/
theorem reads_of_parseEntries (args : List Bytes) (st : SargeParse)
    (haccepted : (st.parseEntries args).1 = true) :
    (st.expectValue = false → ∃ words, Reads dash st.sarge.takesValue args words) ∧
      (st.expectValue = true → args = [] ∨ ∃ value rest words, args = value :: rest ∧
        Reads dash st.sarge.takesValue rest words) := by
  induction args generalizing st with
  | nil => exact ⟨fun _ => ⟨[], .done⟩, fun _ => .inl rfl⟩
  | cons entry args ih =>
      rw [parseEntries] at haccepted
      constructor
      · intro hexpect
        by_cases hdash : entry.head? = some dash
        · obtain ⟨names, hitem, -⟩ | ⟨-, hrejected⟩ := parseEntry_cases hexpect hdash
          · obtain ⟨next, hentry, hsarge, -, hnext, -⟩ := parseEntry_item hexpect hitem
            rw [hentry] at haccepted
            obtain ⟨hplain, hvalued⟩ := ih next haccepted
            have hflags : next.sarge.takesValue = st.sarge.takesValue := by
              rw [hsarge, Sarge.takesValue_foldl_mention]
            rw [hflags] at hplain hvalued
            by_cases hvalue : TakesValue st.sarge.takesValue names
            · obtain rfl | ⟨value, rest, words, rfl, hrest⟩ := hvalued (hnext.mpr hvalue)
              · exact ⟨_, .unfinished hitem hvalue⟩
              · exact ⟨_, .valued hitem hvalue hrest⟩
            · obtain ⟨words, hrest⟩ := hplain (Bool.eq_false_iff.mpr (hnext.not.mpr hvalue))
              exact ⟨_, .plain hitem hvalue hrest⟩
          · split at haccepted
            next next hentry =>
              rw [hentry] at hrejected
              cases hrejected
            next next hentry => cases haccepted
        · rw [parseEntry_text hexpect hdash] at haccepted
          obtain ⟨words, hrest⟩ := (ih _ haccepted).1 hexpect
          exact ⟨_, .text hdash hrest⟩
      · intro hexpect
        rw [parseEntry, if_pos hexpect] at haccepted
        obtain ⟨words, hrest⟩ := (ih _ haccepted).1 rfl
        rw [takesValue_copyValue] at hrest
        exact .inr ⟨entry, args, words, rfl, hrest⟩

/-- The entries that are accepted are those that have a reading. -/
theorem parseEntries_iff {st : SargeParse} (hexpect : st.expectValue = false)
    (args : List Bytes) :
    (st.parseEntries args).1 = true ↔ ∃ words, Reads dash st.sarge.takesValue args words := by
  constructor
  · intro haccepted
    exact (reads_of_parseEntries args st haccepted).1 hexpect
  · rintro ⟨words, hreads⟩
    exact (parseEntries_of_reads hreads st hexpect rfl).1

end SargeParse

end NyanSD
