import NyanSD.SargeArguments

/-!
# What Sarge records

After a command line was accepted, the records of the arguments, the counter and the texts
are those of its reading. Each part of the state is followed through a word of the reading
and then through all words.
-/

namespace NyanSD

open CommandLine (Word Reads Ordered lastValue lateItems)

namespace Sarge

/-! ## One word -/

/-- A name is linked to an argument. -/
def links (s : Sarge) (arg : Nat) (name : Bytes) : Bool := s.argNames.lookup name == some arg

theorem argNames_mention (s : Sarge) (name : Bytes) : (s.mention name).argNames = s.argNames :=
  mention_same argNames (fun _ _ => rfl) s name

theorem links_mention (s : Sarge) (name : Bytes) (arg : Nat) :
    (s.mention name).links arg = s.links arg := by
  funext other
  rw [links, argNames_mention, links]

theorem args_mention (s : Sarge) (name : Bytes) (arg : Nat) :
    (s.mention name).args[arg]? =
      s.args[arg]?.map fun a => { a with parsed := a.parsed || s.links arg name } := by
  unfold mention links
  cases s.argNames.lookup name with
  | none => simp
  | some other =>
      simp only [Option.map_some, Option.getD_some, found, List.getElem?_modify]
      by_cases heq : other = arg
      · simp [heq]
      · simp [heq, beq_eq_false_iff_ne.mpr heq]

theorem args_bind (s : Sarge) (b : Bytes × Bytes) (arg : Nat) :
    (s.bind b).args[arg]? =
      s.args[arg]?.map fun a => { a with value := if s.links arg b.1 then b.2 else a.value } := by
  unfold bind links
  cases s.argNames.lookup b.1 with
  | none => simp
  | some other =>
      simp only [Option.map_some, Option.getD_some, setValue, List.getElem?_modify]
      by_cases heq : other = arg
      · simp [heq]
      · simp [heq]

theorem args_foldl_mention (s : Sarge) (names : List Bytes) (arg : Nat) :
    (names.foldl mention s).args[arg]? =
      s.args[arg]?.map fun a => { a with parsed := a.parsed || names.any (s.links arg) } := by
  induction names generalizing s with
  | nil => simp
  | cons name names ih =>
      rw [List.foldl_cons, ih, args_mention, links_mention, Option.map_map, List.any_cons]
      congr 1
      funext a
      simp [Bool.or_assoc]

theorem flagCounter_foldl_mention {s : Sarge} {names : List Bytes}
    (hknown : ∀ name ∈ names, (s.takesValue name).isSome) :
    (names.foldl mention s).flagCounter = s.flagCounter + names.length := by
  induction names generalizing s with
  | nil => rfl
  | cons name names ih =>
      obtain ⟨hname, hnames⟩ := List.forall_mem_cons.mp hknown
      rw [← takesValue_mention s name] at hnames
      obtain ⟨arg, hlookup⟩ : ∃ arg, s.argNames.lookup name = some arg := by
        rw [← Option.isSome_iff_exists, ← Option.isSome_map]
        exact hname
      have hcount : (s.mention name).flagCounter = s.flagCounter + 1 := by
        rw [mention, hlookup]
        rfl
      rw [List.foldl_cons, ih hnames, hcount, List.length_cons]
      omega

theorem args_record (s : Sarge) (word : Word UInt8) (arg : Nat) :
    (s.record word).args[arg]? = s.args[arg]?.map fun a => { a with
      parsed := a.parsed || word.mentions.any (s.links arg)
      value := ((word.binding.filter fun b => s.links arg b.1).map (·.2)).getD a.value } := by
  have hlinks : (word.mentions.foldl mention s).links arg = s.links arg :=
    foldl_same (links · arg) (fun s name => links_mention s name arg) s word.mentions
  dsimp only [record]
  rw [foldl_same Sarge.args (f := pushText) fun _ _ => rfl]
  cases word.binding with
  | none => exact args_foldl_mention s word.mentions arg
  | some b =>
      rw [Option.toList_some, List.foldl_cons, List.foldl_nil, args_bind, hlinks,
        args_foldl_mention, Option.map_map]
      congr 1
      funext a
      cases hlink : s.links arg b.1 with
      | true => simp [hlink, Option.filter]
      | false => simp [hlink, Option.filter]

theorem textArguments_record (s : Sarge) (word : Word UInt8) :
    (s.record word).textArguments = s.textArguments ++ word.texts := by
  have hpush : ∀ (s : Sarge) (texts : List Bytes),
      (texts.foldl pushText s).textArguments = s.textArguments ++ texts := by
    intro s texts
    induction texts generalizing s with
    | nil => exact (List.append_nil _).symm
    | cons entry texts ih =>
        rw [List.foldl_cons, ih, pushText, List.append_assoc, List.singleton_append]
  dsimp only [record]
  rw [hpush, foldl_same textArguments (bind_same textArguments fun _ _ _ => rfl),
    foldl_same textArguments (mention_same textArguments fun _ _ => rfl)]

theorem flagCounter_record {s : Sarge} {word : Word UInt8}
    (hknown : ∀ name ∈ word.mentions, (s.takesValue name).isSome) :
    (s.record word).flagCounter = s.flagCounter + word.mentions.length := by
  dsimp only [record]
  rw [foldl_same flagCounter (f := pushText) fun _ _ => rfl,
    foldl_same flagCounter (bind_same flagCounter fun _ _ _ => rfl),
    flagCounter_foldl_mention hknown]

/-! ## A reading -/

/-- The state is the one before, with what was read added to it. -/
structure Tally (s : Sarge) (words : List (Word UInt8)) (s' : Sarge) : Prop where
  argNames : s'.argNames = s.argNames
  flags : s'.takesValue = s.takesValue
  parsed : s'.parsed = s.parsed
  textArguments : s'.textArguments = s.textArguments ++ words.flatMap Word.texts
  flagCounter : s'.flagCounter = s.flagCounter + (words.flatMap Word.mentions).length
  args : ∀ arg : Nat, s'.args[arg]? = s.args[arg]?.map fun a => { a with
    parsed := a.parsed || (words.flatMap Word.mentions).any (s.links arg)
    value := (lastValue (s.links arg) words).getD a.value }

theorem Tally.concat {s s' : Sarge} {words : List (Word UInt8)} (htally : Tally s words s')
    {word : Word UInt8} (hknown : ∀ name ∈ word.mentions, (s.takesValue name).isSome) :
    Tally s (words ++ [word]) (s'.record word) where
  argNames := (record_same Sarge.argNames (fun _ _ => rfl) (fun _ _ _ => rfl) (fun _ _ => rfl) s'
    word).trans htally.argNames
  flags := (takesValue_record s' word).trans htally.flags
  parsed := (record_same Sarge.parsed (fun _ _ => rfl) (fun _ _ _ => rfl) (fun _ _ => rfl) s'
    word).trans htally.parsed
  textArguments := by
    rw [textArguments_record, htally.textArguments, List.flatMap_append, List.append_assoc,
      List.flatMap_singleton]
  flagCounter := by
    rw [← htally.flags] at hknown
    rw [flagCounter_record hknown, htally.flagCounter, List.flatMap_append, List.length_append,
      List.flatMap_singleton, Nat.add_assoc]
  args := by
    intro arg
    have hlinks : s'.links arg = s.links arg := by
      funext name
      rw [links, htally.argNames, links]
    rw [args_record, htally.args, Option.map_map, hlinks, List.flatMap_append,
      List.flatMap_singleton, List.any_append, CommandLine.lastValue_concat]
    congr 1
    funext a
    cases (word.binding.filter fun b => s.links arg b.1).map (·.2) with
    | none => simp [Bool.or_assoc]
    | some value => simp [Bool.or_assoc]

theorem tally_foldl_record {s : Sarge} {words : List (Word UInt8)}
    (hknown : ∀ name ∈ words.flatMap Word.mentions, (s.takesValue name).isSome) :
    Tally s words (words.foldl record s) := by
  induction words using List.reverseRecOn with
  | nil =>
      refine ⟨rfl, rfl, rfl, (List.append_nil _).symm, rfl, ?_⟩
      intro arg
      simp [lastValue]
  | append_singleton words word ih =>
      rw [List.flatMap_append, List.flatMap_singleton] at hknown
      obtain ⟨hwords, hword⟩ := List.forall_mem_append.mp hknown
      rw [List.foldl_concat]
      exact (ih hwords).concat hword

end Sarge

namespace SargeParse

/-! ## The reports -/

theorem cerr_checkOrder (st : SargeParse) :
    st.checkOrder.cerr = st.cerr ++
      List.replicate (decide (st.sarge.textArguments ≠ [])).toNat .flagAfterText := by
  unfold checkOrder
  cases st.sarge.textArguments with
  | nil => exact (List.append_nil _).symm
  | cons entry texts => rfl

theorem textArguments_item {st next : SargeParse} {entry : Bytes} {names : List Bytes}
    {value : Option Bytes} (hsarge : next.sarge = st.sarge.record (.item entry names value)) :
    next.sarge.textArguments = st.sarge.textArguments := by
  rw [hsarge, Sarge.textArguments_record]
  exact List.append_nil _

/-- Each item behind a text is reported, and nothing else is. -/
theorem cerr_parseEntries {flags : Bytes → Option Bool} {args : List Bytes}
    {words : List (Word UInt8)} (hreads : Reads dash flags args words) (st : SargeParse)
    (hexpect : st.expectValue = false) (hflags : st.sarge.takesValue = flags) :
    (st.parseEntries args).2.cerr = st.cerr ++
      List.replicate (lateItems (decide (st.sarge.textArguments ≠ [])) words) .flagAfterText := by
  induction hreads generalizing st with
  | done => exact (List.append_nil _).symm
  | @text entry rest words htext hrest ih =>
      have hcerr := ih { st with sarge := st.sarge.pushText entry } hexpect hflags
      rw [parseEntries, parseEntry_text hexpect htext]
      dsimp only
      rw [hcerr]
      simp [Sarge.pushText, lateItems]
  | plain hitem hplain hrest ih =>
      rw [← hflags] at hitem hplain
      obtain ⟨next, hnext, hexpect', hsarge, hcerr⟩ := parseEntries_plain hexpect hitem hplain
      have hflags' : next.sarge.takesValue = flags := by
        rw [hsarge, Sarge.takesValue_record, hflags]
      rw [hnext, ih next hexpect' hflags', hcerr, cerr_checkOrder, textArguments_item hsarge,
        lateItems, List.replicate_add, List.append_assoc]
  | @valued entry names value rest words hitem hvalue hrest ih =>
      rw [← hflags] at hitem hvalue
      obtain ⟨next, hnext, hexpect', hsarge, hcerr⟩ :=
        parseEntries_valued hexpect hitem hvalue value
      have hflags' : next.sarge.takesValue = flags := by
        rw [hsarge, Sarge.takesValue_record, hflags]
      rw [hnext, ih next hexpect' hflags', hcerr, cerr_checkOrder, textArguments_item hsarge,
        lateItems, List.replicate_add, List.append_assoc]
  | unfinished hitem hvalue =>
      rw [← hflags] at hitem
      obtain ⟨next, hnext, -, hcerr⟩ := parseEntries_unfinished hexpect hitem
      rw [hnext, hcerr, cerr_checkOrder, lateItems, lateItems, Nat.add_zero]

end SargeParse

/-- What is reported of a command line that is accepted: a flag behind a text, each time. -/
theorem Sarge.cerr_parseLoop {specs : List Argument} {args : List Bytes}
    {words : List (Word UInt8)}
    (hreads : Reads SargeParse.dash (registered specs) args words) (execName : Bytes) :
    ((setArguments {} specs).parseLoop execName args).2.cerr =
      List.replicate (lateItems false words) .flagAfterText := by
  obtain ⟨argNames, hfresh⟩ := setArguments_eq specs
  have hcerr := SargeParse.cerr_parseEntries hreads { sarge := { setArguments {} specs with
    execName } } rfl (takesValue_setArguments specs)
  rw [parseLoop, hcerr, hfresh]
  rfl

/-- An accepted command line goes unreported where no flag stands behind a text. -/
theorem Sarge.cerr_eq_nil_iff {specs : List Argument} {args : List Bytes}
    {words : List (Word UInt8)}
    (hreads : Reads SargeParse.dash (registered specs) args words) (execName : Bytes) :
    ((setArguments {} specs).parseLoop execName args).2.cerr = [] ↔ Ordered words := by
  rw [cerr_parseLoop hreads, List.replicate_eq_nil_iff, CommandLine.lateItems_eq_zero_iff]
  exact and_iff_left fun hfalse => absurd hfalse Bool.false_ne_true

/-! ## The arguments -/

/-- No two arguments share a name. -/
def DistinctNames (specs : List Argument) : Prop :=
  specs.Pairwise fun first second => ∀ name, first.hasName name = true →
    second.hasName name = false

/-- The names of an argument that are not empty. -/
def Argument.names (a : Argument) : List Bytes := [a.argShort, a.argLong].filter (!·.isEmpty)

theorem Argument.mem_names_iff (a : Argument) (name : Bytes) :
    name ∈ a.names ↔ a.hasName name = true := by
  simp only [names, hasName, List.mem_filter, List.mem_cons, List.not_mem_nil, or_false,
    Bool.and_eq_true, Bool.or_eq_true, beq_iff_eq, and_comm, eq_comm (a := name)]

theorem distinctNames_of_nodup {specs : List Argument}
    (hnodup : (specs.flatMap Argument.names).Nodup) : DistinctNames specs := by
  apply (List.nodup_flatMap.mp hnodup).2.imp
  intro first second hdisjoint name hfirst
  rw [← Argument.mem_names_iff] at hfirst
  rw [← Bool.not_eq_true, ← Argument.mem_names_iff]
  exact hdisjoint hfirst

/-- The record of an argument behind a reading. -/
def Argument.after (words : List (Word UInt8)) (a : Argument) : Argument :=
  { a with
    parsed := (words.flatMap Word.mentions).any a.hasName
    value := (lastValue a.hasName words).getD [] }

theorem DistinctNames.findIdx?_iff {specs : List Argument} (hdistinct : DistinctNames specs)
    (name : Bytes) (arg : Nat) :
    specs.findIdx? (·.hasName name) = some arg ↔
      ∃ a, specs[arg]? = some a ∧ a.hasName name = true := by
  rw [List.findIdx?_eq_some_iff_getElem]
  constructor
  · rintro ⟨hlt, hname, -⟩
    exact ⟨specs[arg], List.getElem?_eq_getElem hlt, hname⟩
  · rintro ⟨a, ha, hname⟩
    obtain ⟨hlt, rfl⟩ := List.getElem?_eq_some_iff.mp ha
    refine ⟨hlt, hname, ?_⟩
    intro other hother hsame
    have hfalse := List.pairwise_iff_getElem.mp hdistinct other arg (by omega) hlt hother name hsame
    rw [hname] at hfalse
    cases hfalse

theorem DistinctNames.find?_iff {specs : List Argument} (hdistinct : DistinctNames specs)
    (name : Bytes) (a : Argument) :
    specs.find? (·.hasName name) = some a ↔ a ∈ specs ∧ a.hasName name = true := by
  constructor
  · intro hfind
    exact ⟨List.mem_of_find?_eq_some hfind,
      List.find?_some (p := fun a : Argument => a.hasName name) hfind⟩
  · rintro ⟨hmem, hname⟩
    obtain ⟨arg, ha⟩ := List.mem_iff_getElem?.mp hmem
    rw [List.find?_eq_bind_findIdx?_getElem?, (hdistinct.findIdx?_iff name arg).mpr ⟨a, ha, hname⟩]
    exact ha

namespace Sarge

theorem links_setArguments {specs : List Argument} (hdistinct : DistinctNames specs) {arg : Nat}
    {a : Argument} (ha : specs[arg]? = some a) :
    (setArguments {} specs).links arg = a.hasName := by
  funext name
  rw [links, lookup_setArguments, Bool.eq_iff_iff, beq_iff_eq, hdistinct.findIdx?_iff, ha]
  constructor
  · rintro ⟨a', heq, hname⟩
    rw [Option.some_inj.mp heq]
    exact hname
  · intro hname
    exact ⟨a, rfl, hname⟩

/-- Both names of an argument reach the record that the reading gives it. -/
theorem Tally.parsedArgument {specs : List Argument} (hdistinct : DistinctNames specs)
    {words : List (Word UInt8)} {s : Sarge} (htally : Tally (setArguments {} specs) words s)
    (name : Bytes) :
    { s with parsed := true }.parsedArgument name =
      ((specs.find? (·.hasName name)).map (Argument.after words)).filter (·.parsed) := by
  rw [Sarge.parsedArgument, if_pos rfl, htally.argNames, lookup_setArguments,
    List.find?_eq_bind_findIdx?_getElem?]
  congr 1
  cases hfind : specs.findIdx? (·.hasName name) with
  | none => rfl
  | some arg =>
      obtain ⟨a, ha, -⟩ := (hdistinct.findIdx?_iff name arg).mp hfind
      simp only [Option.bind_some, htally.args, args_setArguments, List.getElem?_map, ha,
        links_setArguments hdistinct ha, Option.map_some, Argument.unread, Argument.after,
        Bool.false_or]

/-! ## The answers -/

/-- What the object answers behind a reading. -/
structure Recorded (specs : List Argument) (words : List (Word UInt8)) (s : Sarge) : Prop where
  exists_iff : ∀ name, s.exists name = true ↔ ∃ a ∈ specs, a.hasName name = true ∧
    ∃ mention ∈ words.flatMap Word.mentions, a.hasName mention = true
  flagCount : s.flagCount = (words.flatMap Word.mentions).length
  getFlag : ∀ a ∈ specs, ∀ name value, a.hasName name = true → s.exists name = true →
    s.getFlag name value =
      (true, if a.hasValue then (lastValue a.hasName words).getD [] else value)
  getFlag_missing : ∀ name value, s.exists name = false → s.getFlag name value = (false, value)
  getTextArgument : ∀ (index : UInt32) (value : Bytes), s.getTextArgument index value =
    if h : index.toNat < (words.flatMap Word.texts).length
    then (true, (words.flatMap Word.texts)[index.toNat]) else (false, value)

theorem getFlag_of_not_exists {s : Sarge} {name : Bytes} (hmissing : s.exists name = false)
    (value : Bytes) : s.getFlag name value = (false, value) := by
  rw [Sarge.exists, Option.isSome_eq_false_iff, Option.isNone_iff_eq_none] at hmissing
  rw [Sarge.getFlag, hmissing]

theorem exists_of_not_parsed {s : Sarge} (hparsed : s.parsed = false) (name : Bytes) :
    s.exists name = false := by
  rw [Sarge.exists, parsedArgument, hparsed, if_neg Bool.false_ne_true]
  rfl

theorem Tally.recorded {specs : List Argument} (hdistinct : DistinctNames specs)
    {words : List (Word UInt8)} {s : Sarge} (htally : Tally (setArguments {} specs) words s) :
    Recorded specs words { s with parsed := true } := by
  obtain ⟨argNames, hfresh⟩ := setArguments_eq specs
  have htexts : s.textArguments = words.flatMap Word.texts := by
    rw [htally.textArguments, hfresh]
    exact List.nil_append _
  have hexists : ∀ name, { s with parsed := true }.exists name = true ↔
      ∃ a, specs.find? (·.hasName name) = some a ∧ (a.after words).parsed = true := by
    intro name
    rw [Sarge.exists, htally.parsedArgument hdistinct]
    cases specs.find? (·.hasName name) with
    | none => simp
    | some a => simp [Option.filter]
  constructor
  case exists_iff =>
    intro name
    rw [hexists]
    simp only [hdistinct.find?_iff, Argument.after, List.any_eq_true, and_assoc]
  case flagCount =>
    change s.flagCounter = _
    rw [htally.flagCounter, hfresh]
    exact Nat.zero_add _
  case getFlag =>
    intro a hmem name value hname hfound
    have hfind := (hdistinct.find?_iff name a).mpr ⟨hmem, hname⟩
    obtain ⟨a', hfind', hparsed⟩ := (hexists name).mp hfound
    obtain rfl := Option.some_inj.mp (hfind.symm.trans hfind')
    rw [Sarge.getFlag, htally.parsedArgument hdistinct, hfind, Option.map_some,
      Option.filter_some_pos hparsed]
    rfl
  case getFlag_missing =>
    intro name value hmissing
    exact getFlag_of_not_exists hmissing value
  case getTextArgument =>
    intro index value
    simp only [Sarge.getTextArgument, htexts]

theorem parsed_parseLong (st : SargeParse) (entry : Bytes) :
    (st.parseLong entry).2.sarge.parsed = st.sarge.parsed := by
  unfold SargeParse.parseLong
  split
  next => rfl
  next => dsimp only; split <;> rfl

theorem parsed_parseShort (st : SargeParse) (entry : Bytes) :
    (st.parseShort entry).2.sarge.parsed = st.sarge.parsed := by
  induction entry generalizing st with
  | nil => rfl
  | cons k entry ih =>
      rw [SargeParse.parseShort]
      split
      next => rfl
      next arg hlookup =>
        dsimp only
        split
        next =>
          split
          next => rfl
          next => exact ih _
        next => exact ih _

theorem parsed_parseEntry (st : SargeParse) (entry : Bytes) :
    (st.parseEntry entry).2.sarge.parsed = st.sarge.parsed := by
  rw [SargeParse.parseEntry]
  split
  next =>
    rw [SargeParse.copyValue]
    cases st.flagIt with
    | none => rfl
    | some arg => rfl
  next =>
    rw [← SargeParse.sarge_checkOrder st]
    split
    next =>
      split
      next => exact parsed_parseLong _ _
      next => exact parsed_parseShort _ _
    next => rfl

/-- The loop leaves the mark of the object alone. -/
theorem parsed_parseEntries (st : SargeParse) (args : List Bytes) :
    (st.parseEntries args).2.sarge.parsed = st.sarge.parsed := by
  induction args generalizing st with
  | nil => rfl
  | cons entry args ih =>
      have hentry := parsed_parseEntry st entry
      rw [SargeParse.parseEntries]
      split
      next next heq =>
        rw [heq] at hentry
        rw [ih, hentry]
      next next heq =>
        rw [heq] at hentry
        exact hentry

/-- The call ends with what the reading records. -/
theorem parseArguments_of_reads {s : Sarge} {args : List Bytes} {words : List (Word UInt8)}
    (hreads : Reads SargeParse.dash s.takesValue args words) (execName : Bytes) :
    (s.parseArguments execName args).2 =
      { words.foldl record { s with execName } with parsed := true } := by
  obtain ⟨haccepted, hsarge⟩ :=
    SargeParse.parseEntries_of_reads hreads { sarge := { s with execName } } rfl rfl
  unfold parseArguments parseLoop
  split
  next st heq =>
    rw [heq] at hsarge
    rw [← hsarge]
  next st heq =>
    rw [heq] at haccepted
    cases haccepted

theorem parseArguments_of_rejected {s : Sarge} {execName : Bytes} {args : List Bytes}
    (hrejected : (s.parseArguments execName args).1 = false) :
    (s.parseArguments execName args).2.parsed = s.parsed := by
  have hparsed := parsed_parseEntries { sarge := { s with execName } } args
  unfold parseArguments parseLoop at hrejected ⊢
  split
  next st heq =>
    rw [heq] at hrejected
    cases hrejected
  next st heq =>
    rw [heq] at hparsed
    exact hparsed

/-- Behind a command line that was accepted the object answers as its reading says, and
behind one that was rejected it knows no flag. -/
theorem parseArguments_records (specs : List Argument) (execName : Bytes) (args : List Bytes)
    (hdistinct : DistinctNames specs) :
    let result := (setArguments {} specs).parseArguments execName args
    (result.1 = true → ∃ words, Reads SargeParse.dash (registered specs) args words ∧
      words.flatMap Word.arguments = args ∧ Recorded specs words result.2) ∧
    (result.1 = false → ∀ name value, result.2.exists name = false ∧
      result.2.getFlag name value = (false, value)) := by
  dsimp only
  constructor
  · intro haccepted
    obtain ⟨words, hreads⟩ := (parseArguments_accepts specs execName args).mp haccepted
    refine ⟨words, hreads, hreads.flatMap_arguments, ?_⟩
    rw [← takesValue_setArguments specs] at hreads
    have htally : Tally { setArguments {} specs with execName } words _ :=
      tally_foldl_record hreads.known
    rw [parseArguments_of_reads hreads]
    apply Tally.recorded hdistinct
    exact ⟨htally.argNames, htally.flags, htally.parsed, htally.textArguments,
      htally.flagCounter, htally.args⟩
  · intro hrejected name value
    obtain ⟨argNames, hfresh⟩ := setArguments_eq specs
    have hparsed := parseArguments_of_rejected hrejected
    rw [show (setArguments {} specs).parsed = false by rw [hfresh]] at hparsed
    have hmissing := exists_of_not_parsed hparsed name
    exact ⟨hmissing, getFlag_of_not_exists hmissing value⟩

/-- The value of the last mention is kept, also one that looks like a flag. -/
theorem parseArguments_records_port :
    let specs := browserArguments ++ [portArgument]
    let args := [ascii "-hp".toList, ascii "80".toList, ascii "--port".toList,
      ascii "-1".toList, ascii "printer".toList]
    let result := (setArguments {} specs).parseArguments [] args
    DistinctNames specs ∧
    (result.2.flagCount = 3 ∧ result.2.getFlag (ascii ['p']) [] = (true, ascii "-1".toList)) ∧
    ∃ words, Reads SargeParse.dash (registered specs) args words ∧
      words.flatMap Word.arguments = args ∧ Recorded specs words result.2 := by
  have hdistinct : DistinctNames (browserArguments ++ [portArgument]) :=
    distinctNames_of_nodup (by decide)
  exact ⟨hdistinct, by decide, (parseArguments_records _ _ _ hdistinct).1 (by decide)⟩

end Sarge

end NyanSD
