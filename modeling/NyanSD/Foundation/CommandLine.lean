import Mathlib.Data.List.Basic

/-!
# Command lines

A command line is read from left to right. An argument that does not begin with a dash is a
text. Behind two dashes stands the name of a flag, behind one dash a cluster of names of one
character each. A flag may take a value, which is the next argument whatever it looks like;
in a cluster only the last one may.

`flags` tells for each name whether it is known, and then whether its flag takes a value.
-/

namespace CommandLine

/-- What one step of a reading takes. -/
inductive Word (α : Type)
  | text (entry : List α)
  | item (entry : List α) (names : List (List α)) (value : Option (List α))
deriving DecidableEq

variable {α : Type}

namespace Word

/-- The arguments that a word accounts for. -/
def arguments : Word α → List (List α)
  | text entry => [entry]
  | item entry _ value => entry :: value.toList

def texts : Word α → List (List α)
  | text entry => [entry]
  | item _ _ _ => []

def mentions : Word α → List (List α)
  | text _ => []
  | item _ names _ => names

/-- The name that a value belongs to, and the value. -/
def binding : Word α → Option (List α × List α)
  | text _ => none
  | item _ names value => names.getLast?.bind fun name => value.map fun v => (name, v)

def isText : Word α → Bool
  | text _ => true
  | item _ _ _ => false

end Word

/-- The value that was read last for a name. -/
def lastValue (isName : List α → Bool) (words : List (Word α)) : Option (List α) :=
  (((words.filterMap Word.binding).filter fun b => isName b.1).getLast?).map (·.2)

/-- How many items stand behind a text. -/
def lateItems : Bool → List (Word α) → Nat
  | _, [] => 0
  | _, .text _ :: words => lateItems true words
  | behind, .item _ _ _ :: words => behind.toNat + lateItems behind words

variable (dash : α) (flags : List α → Option Bool)

/-- Names of one character each, of which only the last may take a value. -/
structure Cluster (chars : List α) : Prop where
  known : ∀ c ∈ chars, (flags [c]).isSome
  values : ∀ c ∈ chars.dropLast, flags [c] ≠ some true

/-- An argument that mentions flags, and their names. What begins with two dashes is in the
long form. -/
inductive Item : List α → List (List α) → Prop
  | long {name : List α} (hname : (flags name).isSome) : Item (dash :: dash :: name) [name]
  | short {chars : List α} (hshort : chars.head? ≠ some dash) (hcluster : Cluster flags chars) :
      Item (dash :: chars) (chars.map fun c => [c])

/-- The flag that is mentioned last takes a value. -/
def TakesValue (names : List (List α)) : Prop := names.getLast?.bind flags = some true

/-- A reading. At the end a value may be missing. -/
inductive Reads : List (List α) → List (Word α) → Prop
  | done : Reads [] []
  | text {entry : List α} {rest : List (List α)} {words : List (Word α)}
      (htext : entry.head? ≠ some dash) (hrest : Reads rest words) :
      Reads (entry :: rest) (.text entry :: words)
  | plain {entry : List α} {names : List (List α)} {rest : List (List α)} {words : List (Word α)}
      (hitem : Item dash flags entry names) (hplain : ¬ TakesValue flags names)
      (hrest : Reads rest words) :
      Reads (entry :: rest) (.item entry names none :: words)
  | valued {entry : List α} {names : List (List α)} {value : List α} {rest : List (List α)}
      {words : List (Word α)} (hitem : Item dash flags entry names)
      (hvalue : TakesValue flags names) (hrest : Reads rest words) :
      Reads (entry :: value :: rest) (.item entry names (some value) :: words)
  | unfinished {entry : List α} {names : List (List α)} (hitem : Item dash flags entry names)
      (hvalue : TakesValue flags names) : Reads [entry] [.item entry names none]

/-- No flag is mentioned behind a text. -/
def Ordered (words : List (Word α)) : Prop :=
  words.Pairwise fun first second => first.isText = true → second.isText = true

/-- No value is missing. -/
def Finished (words : List (Word α)) : Prop :=
  ∀ entry names, .item entry names none ∈ words → ¬ TakesValue flags names

/-- Flags, each with its value. -/
inductive FlagItems : List (List α) → Prop
  | nil : FlagItems []
  | plain {entry : List α} {names : List (List α)} {rest : List (List α)}
      (hitem : Item dash flags entry names) (hplain : ¬ TakesValue flags names)
      (hrest : FlagItems rest) : FlagItems (entry :: rest)
  | valued {entry : List α} {names : List (List α)} {value : List α} {rest : List (List α)}
      (hitem : Item dash flags entry names) (hvalue : TakesValue flags names)
      (hrest : FlagItems rest) : FlagItems (entry :: value :: rest)

/-- Flags with their values come first, and texts follow. -/
def WellFormed (args : List (List α)) : Prop :=
  ∃ items texts, args = items ++ texts ∧ FlagItems dash flags items ∧
    ∀ entry ∈ texts, entry.head? ≠ some dash

variable {dash flags}

/-! ## There is one reading -/

theorem cluster_nil : Cluster flags [] :=
  ⟨List.forall_mem_nil _, List.forall_mem_nil _⟩

/-- A character in front of another one must not take a value. -/
theorem cluster_cons_iff (c : α) (chars : List α) :
    Cluster flags (c :: chars) ↔
      (flags [c]).isSome ∧ (chars ≠ [] → flags [c] ≠ some true) ∧ Cluster flags chars := by
  constructor
  · intro hcluster
    obtain ⟨hc, hchars⟩ := List.forall_mem_cons.mp hcluster.known
    refine ⟨hc, ?_, hchars, ?_⟩
    · intro hne
      apply hcluster.values
      rw [List.dropLast_cons_of_ne_nil hne]
      exact List.mem_cons_self
    · intro d hd
      apply hcluster.values
      rw [List.dropLast_cons_of_ne_nil (List.ne_nil_of_mem (List.dropLast_subset chars hd))]
      exact List.mem_cons_of_mem c hd
  · rintro ⟨hc, hlast, hcluster⟩
    refine ⟨List.forall_mem_cons.mpr ⟨hc, hcluster.known⟩, ?_⟩
    cases chars with
    | nil => exact List.forall_mem_nil _
    | cons d chars =>
        rw [List.dropLast_cons_of_ne_nil (List.cons_ne_nil d chars)]
        exact List.forall_mem_cons.mpr ⟨hlast (List.cons_ne_nil d chars), hcluster.values⟩

theorem Item.head?_eq {entry : List α} {names : List (List α)}
    (hitem : Item dash flags entry names) : entry.head? = some dash := by
  cases hitem with
  | long hname => rfl
  | short hshort hcluster => rfl

theorem item_long_iff (name : List α) (names : List (List α)) :
    Item dash flags (dash :: dash :: name) names ↔ (flags name).isSome ∧ names = [name] := by
  constructor
  · intro hitem
    cases hitem with
    | long hname => exact ⟨hname, rfl⟩
    | short hshort hcluster => exact absurd rfl hshort
  · rintro ⟨hname, rfl⟩
    exact .long hname

theorem item_short_iff {chars : List α} (hshort : chars.head? ≠ some dash)
    (names : List (List α)) :
    Item dash flags (dash :: chars) names ↔
      Cluster flags chars ∧ names = chars.map fun c => [c] := by
  constructor
  · intro hitem
    cases hitem with
    | long hname => exact absurd rfl hshort
    | short hshort' hcluster => exact ⟨hcluster, rfl⟩
  · rintro ⟨hcluster, rfl⟩
    exact .short hshort hcluster

/-- The names of an item are known. -/
theorem Item.known {entry : List α} {names : List (List α)}
    (hitem : Item dash flags entry names) : ∀ name ∈ names, (flags name).isSome := by
  cases hitem with
  | long hname => exact List.forall_mem_singleton.mpr hname
  | short hshort hcluster => exact List.forall_mem_map.mpr hcluster.known

theorem TakesValue.exists_last {names : List (List α)} (hvalue : TakesValue flags names) :
    ∃ name, names.getLast? = some name ∧ flags name = some true := Option.bind_eq_some_iff.mp hvalue

theorem Item.unique {entry : List α} {names names' : List (List α)}
    (hitem : Item dash flags entry names) (hitem' : Item dash flags entry names') :
    names = names' := by
  cases hitem with
  | long hname => exact ((item_long_iff _ _).mp hitem').2.symm
  | short hshort hcluster => exact ((item_short_iff hshort _).mp hitem').2.symm

theorem Reads.unique {args : List (List α)} {words words' : List (Word α)}
    (hreads : Reads dash flags args words) (hreads' : Reads dash flags args words') :
    words = words' := by
  induction hreads generalizing words' with
  | done =>
      cases hreads' with
      | done => rfl
  | text htext hrest ih =>
      cases hreads' with
      | text htext' hrest' => rw [ih hrest']
      | plain hitem' hplain' hrest' => exact absurd hitem'.head?_eq htext
      | valued hitem' hvalue' hrest' => exact absurd hitem'.head?_eq htext
      | unfinished hitem' hvalue' => exact absurd hitem'.head?_eq htext
  | plain hitem hplain hrest ih =>
      cases hreads' with
      | text htext' hrest' => exact absurd hitem.head?_eq htext'
      | plain hitem' hplain' hrest' => rw [ih hrest', hitem.unique hitem']
      | valued hitem' hvalue' hrest' =>
          rw [hitem'.unique hitem] at hvalue'
          exact absurd hvalue' hplain
      | unfinished hitem' hvalue' =>
          rw [hitem'.unique hitem] at hvalue'
          exact absurd hvalue' hplain
  | valued hitem hvalue hrest ih =>
      cases hreads' with
      | text htext' hrest' => exact absurd hitem.head?_eq htext'
      | plain hitem' hplain' hrest' =>
          rw [hitem'.unique hitem] at hplain'
          exact absurd hvalue hplain'
      | valued hitem' hvalue' hrest' => rw [ih hrest', hitem.unique hitem']
  | unfinished hitem hvalue =>
      cases hreads' with
      | text htext' hrest' => exact absurd hitem.head?_eq htext'
      | plain hitem' hplain' hrest' =>
          rw [hitem'.unique hitem] at hplain'
          exact absurd hvalue hplain'
      | unfinished hitem' hvalue' => rw [hitem.unique hitem']

/-- Every argument is accounted for once. -/
theorem Reads.flatMap_arguments {args : List (List α)} {words : List (Word α)}
    (hreads : Reads dash flags args words) : words.flatMap Word.arguments = args := by
  induction hreads with
  | done => rfl
  | text htext hrest ih => rw [List.flatMap_cons, ih, Word.arguments, List.singleton_append]
  | plain hitem hplain hrest ih => rw [List.flatMap_cons, ih]; rfl
  | valued hitem hvalue hrest ih => rw [List.flatMap_cons, ih]; rfl
  | unfinished hitem hvalue => rfl

/-- Only names that are known are mentioned. -/
theorem Reads.known {args : List (List α)} {words : List (Word α)}
    (hreads : Reads dash flags args words) :
    ∀ name ∈ words.flatMap Word.mentions, (flags name).isSome := by
  induction hreads with
  | done => exact List.forall_mem_nil _
  | text htext hrest ih => exact ih
  | plain hitem hplain hrest ih =>
      exact List.forall_mem_append.mpr ⟨hitem.known, ih⟩
  | valued hitem hvalue hrest ih =>
      exact List.forall_mem_append.mpr ⟨hitem.known, ih⟩
  | unfinished hitem hvalue =>
      exact List.forall_mem_append.mpr ⟨hitem.known, List.forall_mem_nil _⟩

theorem lastValue_concat (isName : List α → Bool) (words : List (Word α)) (word : Word α) :
    lastValue isName (words ++ [word]) =
      ((word.binding.filter fun b => isName b.1).map (·.2)).or (lastValue isName words) := by
  unfold lastValue
  rw [List.filterMap_append, List.filter_append]
  cases hbinding : word.binding with
  | none => simp [hbinding]
  | some b =>
      cases hname : isName b.1 with
      | true => simp [hbinding, hname, Option.filter]
      | false => simp [hbinding, hname, Option.filter]

/-! ## Well-formed command lines -/

theorem ordered_cons_iff (word : Word α) (words : List (Word α)) :
    Ordered (word :: words) ↔
      (word.isText = true → ∀ next ∈ words, next.isText = true) ∧ Ordered words := by
  unfold Ordered
  rw [List.pairwise_cons]
  apply and_congr_left'
  constructor
  · intro hall htext next hnext
    exact hall next hnext htext
  · intro hall next hnext htext
    exact hall htext next hnext

/-- Texts come last where no item is late. -/
theorem lateItems_eq_zero_iff (behind : Bool) (words : List (Word α)) :
    lateItems behind words = 0 ↔
      Ordered words ∧ (behind = true → ∀ word ∈ words, word.isText = true) := by
  induction words generalizing behind with
  | nil => simp [lateItems, Ordered]
  | cons word words ih =>
      rw [ordered_cons_iff]
      cases word with
      | text entry =>
          rw [lateItems, ih]
          simp only [Word.isText, forall_const, List.forall_mem_cons, true_and]
          constructor
          · rintro ⟨hordered, htexts⟩
            exact ⟨⟨htexts, hordered⟩, fun _ => htexts⟩
          · rintro ⟨⟨htexts, hordered⟩, -⟩
            exact ⟨hordered, htexts⟩
      | item entry names value =>
          rw [lateItems, Nat.add_eq_zero_iff, ih]
          cases behind with
          | false => simp [Word.isText]
          | true => simp [Word.isText]

theorem finished_cons_iff (word : Word α) (words : List (Word α)) :
    Finished flags (word :: words) ↔
      (∀ entry names, word = .item entry names none → ¬ TakesValue flags names) ∧
        Finished flags words := by
  simp only [Finished, List.mem_cons]
  constructor
  · intro hall
    refine ⟨?_, ?_⟩
    · intro entry names hword
      exact hall entry names (.inl hword.symm)
    · intro entry names hmem
      exact hall entry names (.inr hmem)
  · rintro ⟨hword, hwords⟩ entry names (heq | hmem)
    · exact hword entry names heq.symm
    · exact hwords entry names hmem

theorem Ordered.item {words : List (Word α)} (hordered : Ordered words) (entry : List α)
    (names : List (List α)) (value : Option (List α)) :
    Ordered (.item entry names value :: words) := by
  refine (ordered_cons_iff _ _).mpr ⟨?_, hordered⟩
  intro htext
  cases htext

theorem Finished.plain {words : List (Word α)} (hfinished : Finished flags words) (entry : List α)
    {names : List (List α)} (hplain : ¬ TakesValue flags names) :
    Finished flags (.item entry names none :: words) := by
  refine (finished_cons_iff _ _).mpr ⟨?_, hfinished⟩
  intro entry' names' heq
  cases heq
  exact hplain

theorem Finished.valued {words : List (Word α)} (hfinished : Finished flags words)
    (entry : List α) (names : List (List α)) (value : List α) :
    Finished flags (.item entry names (some value) :: words) := by
  refine (finished_cons_iff _ _).mpr ⟨?_, hfinished⟩
  intro entry' names' heq
  cases heq

/-- Texts are read as they stand. -/
theorem reads_texts {texts : List (List α)} (htexts : ∀ entry ∈ texts, entry.head? ≠ some dash) :
    Reads dash flags texts (texts.map .text) := by
  induction texts with
  | nil => exact .done
  | cons entry texts ih =>
      obtain ⟨hentry, htexts⟩ := List.forall_mem_cons.mp htexts
      exact .text hentry (ih htexts)

/-- Where a reading consists of texts, no argument begins with a dash. -/
theorem Reads.forall_head?_ne {args : List (List α)} {words : List (Word α)}
    (hreads : Reads dash flags args words) (htexts : ∀ word ∈ words, word.isText = true) :
    ∀ entry ∈ args, entry.head? ≠ some dash := by
  induction hreads with
  | done => exact List.forall_mem_nil _
  | text htext hrest ih =>
      exact List.forall_mem_cons.mpr ⟨htext, ih (List.forall_mem_cons.mp htexts).2⟩
  | plain hitem hplain hrest ih => cases (List.forall_mem_cons.mp htexts).1
  | valued hitem hvalue hrest ih => cases (List.forall_mem_cons.mp htexts).1
  | unfinished hitem hvalue => cases (List.forall_mem_cons.mp htexts).1

theorem ordered_texts (texts : List (List α)) : Ordered (texts.map Word.text) := by
  apply List.pairwise_map.mpr
  apply List.pairwise_of_forall
  intro first second htext
  rfl

theorem finished_texts (texts : List (List α)) :
    Finished flags (texts.map Word.text) := by
  intro entry names hmem
  obtain ⟨text, -, heq⟩ := List.mem_map.mp hmem
  cases heq

/-- Behind flag items a reading goes on as it does by itself. -/
theorem FlagItems.reads_append {items rest : List (List α)} {words : List (Word α)}
    (hitems : FlagItems dash flags items) (hrest : Reads dash flags rest words)
    (hordered : Ordered words) (hfinished : Finished flags words) :
    ∃ all, Reads dash flags (items ++ rest) all ∧ Ordered all ∧ Finished flags all := by
  induction hitems with
  | nil => exact ⟨words, hrest, hordered, hfinished⟩
  | @plain entry names items hitem hplain hitems ih =>
      obtain ⟨all, hreads, hall, hended⟩ := ih
      refine ⟨.item entry names none :: all, .plain hitem hplain hreads, ?_, ?_⟩
      · exact hall.item entry names none
      · exact hended.plain entry hplain
  | @valued entry names value items hitem hvalue hitems ih =>
      obtain ⟨all, hreads, hall, hended⟩ := ih
      refine ⟨.item entry names (some value) :: all, .valued hitem hvalue hreads, ?_, ?_⟩
      · exact hall.item entry names (some value)
      · exact hended.valued entry names value

theorem Reads.wellFormed {args : List (List α)} {words : List (Word α)}
    (hreads : Reads dash flags args words) (hordered : Ordered words)
    (hfinished : Finished flags words) : WellFormed dash flags args := by
  induction hreads with
  | done => exact ⟨[], [], rfl, .nil, List.forall_mem_nil _⟩
  | @text entry rest words htext hrest ih =>
      obtain ⟨htexts, -⟩ := (ordered_cons_iff _ _).mp hordered
      refine ⟨[], entry :: rest, rfl, .nil, List.forall_mem_cons.mpr ⟨htext, ?_⟩⟩
      exact hrest.forall_head?_ne (htexts rfl)
  | plain hitem hplain hrest ih =>
      obtain ⟨items, texts, rfl, hitems, htexts⟩ :=
        ih ((ordered_cons_iff _ _).mp hordered).2 ((finished_cons_iff _ _).mp hfinished).2
      exact ⟨_ :: items, texts, rfl, .plain hitem hplain hitems, htexts⟩
  | valued hitem hvalue hrest ih =>
      obtain ⟨items, texts, rfl, hitems, htexts⟩ :=
        ih ((ordered_cons_iff _ _).mp hordered).2 ((finished_cons_iff _ _).mp hfinished).2
      exact ⟨_ :: _ :: items, texts, rfl, .valued hitem hvalue hitems, htexts⟩
  | unfinished hitem hvalue =>
      exact absurd hvalue (hfinished _ _ List.mem_cons_self)

/-- The well-formed command lines are those with a reading in which texts come last and no
value is missing. -/
theorem wellFormed_iff (args : List (List α)) :
    WellFormed dash flags args ↔
      ∃ words, Reads dash flags args words ∧ Ordered words ∧ Finished flags words := by
  constructor
  · rintro ⟨items, texts, rfl, hitems, htexts⟩
    exact hitems.reads_append (reads_texts htexts) (ordered_texts texts) (finished_texts texts)
  · rintro ⟨words, hreads, hordered, hfinished⟩
    exact hreads.wellFormed hordered hfinished

/-- To have a reading is to be well-formed just where the reading is. -/
theorem readable_iff_wellFormed_iff (args : List (List α)) :
    ((∃ words, Reads dash flags args words) ↔ WellFormed dash flags args) ↔
      ∀ words, Reads dash flags args words → Ordered words ∧ Finished flags words := by
  rw [wellFormed_iff]
  constructor
  · intro hiff words hreads
    obtain ⟨words', hreads', hordered, hfinished⟩ := hiff.mp ⟨words, hreads⟩
    rw [hreads.unique hreads']
    exact ⟨hordered, hfinished⟩
  · intro hall
    constructor
    · rintro ⟨words, hreads⟩
      exact ⟨words, hreads, hall words hreads⟩
    · rintro ⟨words, hreads, -⟩
      exact ⟨words, hreads⟩

end CommandLine
