import NyanSD.IniFile
import Mathlib.Data.List.Induction

/-!
# What the reader answers

The values of a key are joined in the order of the file. Section and name are kept in one
key, with an equals sign between them, in lower case. No name that is read has an equals
sign, so a key stands for one section and one name, up to case. A name that is asked for may
have one: then what is in front of its last one stands for the end of the section.
-/

namespace NyanSD.Ini

open StdString TextLines

/-! ## Keys -/

theorem toLower_eq_equals_iff {c : UInt8} : toLower c = equals ↔ c = equals := by
  constructor
  · intro heq
    rw [toLower] at heq
    split at heq
    · rename_i hupper
      have hnat := congrArg UInt8.toNat heq
      have hlow := UInt8.le_iff_toNat_le.mp hupper.1
      have hhigh := UInt8.le_iff_toNat_le.mp hupper.2
      have hequals : equals.toNat = 61 := rfl
      have hsum : (c + 32).toNat = (c.toNat + 32) % 256 := UInt8.toNat_add c 32
      have hsixtyfive : (65 : UInt8).toNat = 65 := rfl
      have hninety : (90 : UInt8).toNat = 90 := rfl
      omega
    · exact heq
  · rintro rfl
    rfl

theorem equals_mem_lower_iff {text : Bytes} : equals ∈ lower text ↔ equals ∈ text := by
  simp [lower, toLower_eq_equals_iff]

/-- A key is the section and the name up to case, where the name has no equals sign. -/
theorem makeKey_eq_iff {title name other third : Bytes} (hname : equals ∉ name)
    (hthird : equals ∉ third) :
    makeKey title name = makeKey other third ↔
      lower title = lower other ∧ lower name = lower third := by
  have hkey : ∀ title name, (makeKey title name).reverse =
      (lower name).reverse ++ equals :: (lower title).reverse := by
    intro title name
    have hequals : toLower equals = equals := rfl
    simp [makeKey, lower, hequals]
  have hfree : ∀ {name}, equals ∉ name → equals ∉ (lower name).reverse := by
    intro name hname hmem
    exact hname (equals_mem_lower_iff.mp (List.mem_reverse.mp hmem))
  rw [← List.reverse_inj, hkey, hkey]
  constructor
  · intro heq
    obtain ⟨hfirst, hrest⟩ := append_separator_inj (hfree hname) (hfree hthird) heq
    exact ⟨List.reverse_inj.mp hrest, List.reverse_inj.mp hfirst⟩
  · rintro ⟨htitle, hnames⟩
    rw [htitle, hnames]

/-- An equals sign in a name is one of the key. -/
theorem makeKey_equals (title front name : Bytes) :
    makeKey title (front ++ equals :: name) = makeKey (title ++ equals :: front) name := by
  simp [makeKey]

/-! ## Values and sections -/

/-- The values of one key as they are joined: what is empty in front is lost. -/
def join (values : List Bytes) : Bytes :=
  values.foldl (fun held value => (if 0 < held.length then held ++ [newline] else held) ++ value) []

theorem join_concat (values : List Bytes) (value : Bytes) :
    join (values ++ [value]) =
      (if 0 < (join values).length then join values ++ [newline] else join values) ++ value := by
  rw [join, List.foldl_concat]
  rfl

/-- Joining puts a newline between the values, beginning with the first that is not empty. -/
theorem join_eq_intercalate (values : List Bytes) :
    join values = [newline].intercalate (values.dropWhile (· = [])) := by
  -- from the first value on that is not empty, every value has a newline in front
  have hheld : ∀ (rest : List Bytes) (held : Bytes), held ≠ [] →
      rest.foldl (fun held value => (if 0 < held.length then held ++ [newline] else held) ++ value)
        held = [newline].intercalate (held :: rest) := by
    intro rest
    induction rest with
    | nil =>
        intro held _
        simp
    | cons value rest ih =>
        intro held hne
        rw [List.foldl_cons, if_pos (List.length_pos_iff.mpr hne), ih _ (by simp [hne])]
        cases rest with
        | nil => simp
        | cons other rest => simp
  induction values with
  | nil => rfl
  | cons value rest ih =>
      by_cases hvalue : value = []
      · rw [List.dropWhile_cons_of_pos (by simpa using hvalue), ← ih, hvalue]
        rfl
      · rw [List.dropWhile_cons_of_neg (by simpa using hvalue)]
        exact hheld rest value hvalue

def Call.key (call : Call) : Bytes := makeKey call.title call.name

/-- The values filed under a key, in order. -/
def valuesOf (key : Bytes) (calls : List Call) : List Bytes :=
  (calls.filter fun call => call.key = key).map Call.value

theorem ofCalls_concat (calls : List Call) (call : Call) :
    Entries.ofCalls (calls ++ [call]) =
      IniHandler.file valueHandler (Entries.ofCalls calls) call := by
  rw [Entries.ofCalls, List.foldl_concat]
  rfl

/-- The reader holds the joined values of every key that was filed. -/
theorem values_ofCalls (calls : List Call) (key : Bytes) :
    (Entries.ofCalls calls).values key =
      if valuesOf key calls = [] then none else some (join (valuesOf key calls)) := by
  induction calls using List.reverseRecOn with
  | nil => rfl
  | append_singleton calls call ih =>
      rw [ofCalls_concat, valuesOf, List.filter_append, List.map_append, ← valuesOf]
      by_cases hkey : call.key = key
      · have hone : ([call].filter fun call => call.key = key).map Call.value = [call.value] := by
          simp [hkey]
        have hheld : ((Entries.ofCalls calls).values key).getD [] = join (valuesOf key calls) := by
          rw [ih]
          split
          · rename_i hnone
            rw [hnone]
            rfl
          · rfl
        rw [hone, if_neg (by simp), join_concat, ← hheld, ← hkey]
        exact Function.update_self _ _ _
      · have hnone : ([call].filter fun call => call.key = key).map Call.value = [] := by
          simp [hkey]
        rw [hnone, List.append_nil, ← ih]
        exact Function.update_of_ne (Ne.symm hkey) _ _

/-- The sections are the titles of the calls, in order and without repetition. -/
theorem sections_ofCalls (calls : List Call) :
    (Entries.ofCalls calls).sections.Pairwise (· < ·) ∧
      ∀ title, title ∈ (Entries.ofCalls calls).sections ↔ ∃ call ∈ calls, call.title = title := by
  induction calls using List.reverseRecOn with
  | nil => exact ⟨.nil, by simp [Entries.ofCalls]⟩
  | append_singleton calls call ih =>
      obtain ⟨hsorted, hmem⟩ := ih
      have hsections : (Entries.ofCalls (calls ++ [call])).sections =
          SortedSet.insert call.title (Entries.ofCalls calls).sections := by
        rw [ofCalls_concat]
        rfl
      rw [hsections]
      refine ⟨SortedSet.pairwise_insert hsorted, ?_⟩
      intro title
      rw [SortedSet.mem_insert, hmem]
      simp [or_comm, eq_comm]

/-! ## What a file answers -/

theorem Reads.equals_not_mem {continues : Bool} {line name value : Bytes}
    (hreads : Reads continues line (.entry name value)) : equals ∉ name := by
  cases hreads with
  | entry _ _ hname =>
      intro hmem
      exact hname.free equals hmem List.mem_cons_self

/-- No name that reaches the handler has an equals sign. -/
theorem ReadsAll.equals_not_mem {continues : Bool} {lines : List Bytes} {items : List Item}
    (hreads : ReadsAll continues lines items) {title prevName : Bytes}
    (hprev : equals ∉ prevName) : ∀ call ∈ calls title prevName items, equals ∉ call.name := by
  induction hreads generalizing title prevName with
  | nil => exact List.forall_mem_nil _
  | @cons _ _ _ item items hitem _ ih =>
      cases item with
      | nothing => exact ih hprev
      | bad => exact ih hprev
      | header text => exact ih List.not_mem_nil
      | entry name value =>
          -- the name that is kept is the front of one without an equals sign
          have hname := hitem.equals_not_mem
          exact List.forall_mem_cons.mpr ⟨hname, ih fun hmem => hname (List.mem_of_mem_take hmem)⟩
      | continuation text => exact List.forall_mem_cons.mpr ⟨hprev, ih hprev⟩

/-- The call is for this section and this name, up to case. -/
def Call.IsFor (title name : Bytes) (call : Call) : Prop :=
  lower call.title = lower title ∧ lower call.name = lower name

instance (title name : Bytes) : DecidablePred (Call.IsFor title name) :=
  fun _ => inferInstanceAs (Decidable (_ ∧ _))

/-- What the lines of a file say under a section and a name. -/
def said (items : List Item) (title name : Bytes) : List Bytes :=
  ((calls [] [] items).filter fun call => call.IsFor title name).map Call.value

theorem FileReads.values_eq {file : Bytes} {items : List Item} (hreads : FileReads file items)
    (title : Bytes) {name : Bytes} (hname : equals ∉ name) :
    (INIReader.ofFile (some file)).view.values title name =
      if said items title name = [] then none else some (join (said items title name)) := by
  have hfree := @ReadsAll.equals_not_mem _ _ _ hreads [] [] List.not_mem_nil
  have hsame : valuesOf (makeKey title name) (calls [] [] items) = said items title name := by
    rw [valuesOf, said]
    congr 1
    apply List.filter_congr
    intro call hcall
    exact decide_eq_decide.mpr (makeKey_eq_iff (hfree call hcall) hname)
  rw [hreads.ofFile_eq, ← hsame]
  exact values_ofCalls _ _

/-- A reader answers with what the lines of its file say: one value for every line, joined in
their order, whatever the case of the section and the name. -/
theorem get_eq {file : Bytes} {items : List Item} (hreads : FileReads file items)
    (title : Bytes) {name : Bytes} (hname : equals ∉ name) (default : Bytes) :
    (INIReader.ofFile (some file)).view.get title name default =
      if said items title name = [] then default
      else [newline].intercalate ((said items title name).dropWhile (· = [])) := by
  rw [Daemon.INIReader.get, hreads.values_eq title hname, ← join_eq_intercalate]
  split
  · rfl
  · rfl

/-- Every name can be brought into one without an equals sign. -/
theorem get_equals (reader : INIReader) (title front name default : Bytes) :
    reader.view.get title (front ++ equals :: name) default =
      reader.view.get (title ++ equals :: front) name default := by
  simp only [Daemon.INIReader.get, INIReader.view, makeKey_equals]

/-- The sections are those in which the file says something, as they are written there. -/
theorem sections_eq {file : Bytes} {items : List Item} (hreads : FileReads file items) :
    (INIReader.ofFile (some file)).view.sections.Pairwise (· < ·) ∧
      ∀ title, title ∈ (INIReader.ofFile (some file)).view.sections ↔
        ∃ call ∈ calls [] [] items, call.title = title := by
  rw [INIReader.view, hreads.ofFile_eq]
  exact sections_ofCalls _

end NyanSD.Ini
