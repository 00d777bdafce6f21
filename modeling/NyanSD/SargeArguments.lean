import NyanSD.Sarge
import Mathlib.Data.List.Induction

/-!
# The command lines that are accepted

A fresh object with its arguments links each name to the first argument that has it. From
there the command lines that are accepted are those with a reading, and the well-formed ones
are among them.
-/

namespace NyanSD

open CommandLine (TakesValue Reads Ordered Finished WellFormed)

/-! ## The names that were registered -/

/-- One of the names of an argument. An empty name is none. -/
def Argument.hasName (a : Argument) (name : Bytes) : Bool :=
  !name.isEmpty && (a.argShort == name || a.argLong == name)

/-- Whether a name is registered, and then whether its flag takes a value. -/
def registered (specs : List Argument) (name : Bytes) : Option Bool :=
  (specs.find? (·.hasName name)).map (·.hasValue)

/-- The record that is made for an argument. -/
def Argument.unread (a : Argument) : Argument := { a with value := [], parsed := false }

namespace Sarge

theorem lookup_insertName (s : Sarge) (name other : Bytes) (arg : Nat) :
    (s.insertName name arg).argNames.lookup other =
      (s.argNames.lookup other).or (if name == other then some arg else none) := by
  rw [BEq.comm (a := name)]
  unfold insertName
  split
  next htaken =>
    split
    next heq =>
      obtain ⟨old, hold⟩ := Option.isSome_iff_exists.mp htaken
      rw [beq_iff_eq.mp heq, hold, Option.some_or]
    next hne => rw [Option.or_none]
  next hfree =>
    rw [List.lookup_append, List.lookup_cons, List.lookup_nil]
    cases other == name with
    | false => rfl
    | true => rfl

theorem lookup_link (s : Sarge) (name other : Bytes) (arg : Nat) :
    (s.link name arg).argNames.lookup other =
      (s.argNames.lookup other).or
        (if !other.isEmpty && name == other then some arg else none) := by
  unfold link
  cases name with
  | nil =>
      cases other with
      | nil => exact (Option.or_none).symm
      | cons c other => exact (Option.or_none).symm
  | cons c name =>
      rw [List.isEmpty_cons, if_neg Bool.false_ne_true, lookup_insertName]
      cases other with
      | nil => rfl
      | cons d other => rfl

theorem lookup_setArgument (s : Sarge) (a : Argument) (name : Bytes) :
    (s.setArgument a.argShort a.argLong a.description a.hasValue).argNames.lookup name =
      (s.argNames.lookup name).or (if a.hasName name then some s.args.length else none) := by
  dsimp only [setArgument]
  rw [lookup_link, lookup_link, Option.or_assoc, Argument.hasName]
  cases !name.isEmpty with
  | false => rfl
  | true =>
      cases a.argShort == name with
      | false => rfl
      | true => rfl

theorem link_eq (s : Sarge) (name : Bytes) (arg : Nat) :
    ∃ argNames, s.link name arg = { s with argNames } := by
  unfold link insertName
  split
  next => exact ⟨s.argNames, rfl⟩
  next =>
    split
    next => exact ⟨s.argNames, rfl⟩
    next => exact ⟨_, rfl⟩

/-- Besides the links, a registration adds a record. -/
theorem setArgument_eq (s : Sarge) (a : Argument) :
    ∃ argNames, s.setArgument a.argShort a.argLong a.description a.hasValue =
      { s with args := s.args ++ [a.unread], argNames } := by
  let added : Sarge := { s with args := s.args ++ [a.unread] }
  obtain ⟨short, hshort⟩ := link_eq added a.argShort s.args.length
  obtain ⟨long, hlong⟩ := link_eq { added with argNames := short } a.argLong s.args.length
  refine ⟨long, ?_⟩
  change (added.link a.argShort s.args.length).link a.argLong s.args.length = _
  rw [hshort, hlong]

theorem setArguments_concat (s : Sarge) (specs : List Argument) (a : Argument) :
    s.setArguments (specs ++ [a]) =
      (s.setArguments specs).setArgument a.argShort a.argLong a.description a.hasValue :=
  List.foldl_concat _ _ _ _

/-- A fresh object with its arguments has read nothing. -/
theorem setArguments_eq (specs : List Argument) :
    ∃ argNames, setArguments {} specs = { args := specs.map Argument.unread, argNames } := by
  induction specs using List.reverseRecOn with
  | nil => exact ⟨[], rfl⟩
  | append_singleton specs a ih =>
      obtain ⟨front, hfront⟩ := ih
      obtain ⟨argNames, heq⟩ := setArgument_eq (setArguments {} specs) a
      refine ⟨argNames, ?_⟩
      rw [setArguments_concat, heq, hfront, List.map_append, List.map_singleton]

theorem args_setArguments (specs : List Argument) :
    (setArguments {} specs).args = specs.map Argument.unread := by
  obtain ⟨argNames, heq⟩ := setArguments_eq specs
  rw [heq]

/-- A name is linked to the first argument that has it. -/
theorem lookup_setArguments (specs : List Argument) (name : Bytes) :
    (setArguments {} specs).argNames.lookup name = specs.findIdx? (·.hasName name) := by
  induction specs using List.reverseRecOn with
  | nil => rfl
  | append_singleton specs a ih =>
      have hlength : (setArguments {} specs).args.length = specs.length := by
        rw [args_setArguments, List.length_map]
      rw [setArguments_concat, lookup_setArgument, ih, hlength, List.findIdx?_append,
        List.findIdx?_singleton]
      congr 1
      split
      · simp
      · rfl

theorem takesValue_setArguments (specs : List Argument) :
    (setArguments {} specs).takesValue = registered specs := by
  funext name
  rw [takesValue, lookup_setArguments, registered, List.find?_eq_bind_findIdx?_getElem?]
  cases hfind : specs.findIdx? (·.hasName name) with
  | none => rfl
  | some arg =>
      obtain ⟨hlt, -⟩ := List.findIdx?_eq_some_iff_getElem.mp hfind
      simp [hasValue, args_setArguments, hlt, Argument.unread]

/-! ## What is accepted -/

theorem parseLoop_iff (specs : List Argument) (execName : Bytes) (args : List Bytes) :
    ((setArguments {} specs).parseLoop execName args).1 = true ↔
      ∃ words, Reads SargeParse.dash (registered specs) args words := by
  rw [← takesValue_setArguments specs]
  exact SargeParse.parseEntries_iff rfl args

theorem parseArguments_fst (s : Sarge) (execName : Bytes) (args : List Bytes) :
    (s.parseArguments execName args).1 = (s.parseLoop execName args).1 := by
  unfold parseArguments
  split
  next st heq => rw [heq]
  next st heq => rw [heq]

theorem parseArguments_accepts (specs : List Argument) (execName : Bytes) (args : List Bytes) :
    ((setArguments {} specs).parseArguments execName args).1 = true ↔
      ∃ words, Reads SargeParse.dash (registered specs) args words := by
  rw [parseArguments_fst]
  exact parseLoop_iff specs execName args

/-- A flag behind a text is reported but not rejected, and nothing looks for a value that is
still expected at the end. What is accepted is well-formed where neither happens. -/
theorem parseArguments_accepts_wellFormed (specs : List Argument) (execName : Bytes)
    (args : List Bytes) :
    (((setArguments {} specs).parseArguments execName args).1 = true ↔
        WellFormed SargeParse.dash (registered specs) args) ↔
      ∀ words, Reads SargeParse.dash (registered specs) args words →
        Ordered words ∧ Finished (registered specs) words := by
  rw [parseArguments_accepts]
  exact CommandLine.readable_iff_wellFormed_iff args

/-- The arguments of the browser. -/
def browserArguments : List Argument :=
  [{ argShort := ascii ['h'], argLong := ascii "help".toList,
     description := ascii "Show this help message.".toList },
   { argShort := ascii ['a'], argLong := ascii "all".toList,
     description := ascii "Show all found services (default).".toList }]

/-- An argument with a value. -/
def portArgument : Argument :=
  { argShort := ascii ['p'], argLong := ascii "port".toList, hasValue := true }

theorem parseArguments_accepts_illFormed :
    let browser := setArguments {} browserArguments
    let behindText := [ascii "printer".toList, ascii "-h".toList]
    let noValue := [ascii "--port".toList]
    ((browser.parseArguments [] behindText).1 = true ∧
      (browser.parseLoop [] behindText).2.cerr = [.flagAfterText] ∧
      ¬ WellFormed SargeParse.dash (registered browserArguments) behindText) ∧
    ((setArguments {} [portArgument]).parseArguments [] noValue).1 = true ∧
      ¬ WellFormed SargeParse.dash (registered [portArgument]) noValue := by
  refine ⟨⟨by decide, by decide, ?_⟩, by decide, ?_⟩
  · intro hformed
    obtain ⟨words, hreads, hordered, -⟩ := (CommandLine.wellFormed_iff _).mp hformed
    cases hreads with
    | text htext hrest =>
        cases hrest with
        | text htext' hrest' => exact htext' rfl
        | plain hitem hplain hrest' =>
            cases ((CommandLine.ordered_cons_iff _ _).mp hordered).1 rfl _ List.mem_cons_self
        | unfinished hitem hvalue =>
            cases ((CommandLine.ordered_cons_iff _ _).mp hordered).1 rfl _ List.mem_cons_self
    | plain hitem hplain hrest => exact absurd hitem.head?_eq (by decide)
    | valued hitem hvalue hrest => exact absurd hitem.head?_eq (by decide)
  · intro hformed
    obtain ⟨words, hreads, -, hfinished⟩ := (CommandLine.wellFormed_iff _).mp hformed
    cases hreads with
    | text htext hrest => exact htext rfl
    | plain hitem hplain hrest =>
        obtain ⟨-, rfl⟩ := (CommandLine.item_long_iff (ascii "port".toList) _).mp hitem
        exact hplain (by rw [TakesValue]; decide)
    | unfinished hitem hvalue => exact hfinished _ _ List.mem_cons_self hvalue

end Sarge

end NyanSD
