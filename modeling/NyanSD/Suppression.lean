import NyanSD.ResponseRoundTrip

/-!
# Bad datagrams among good ones

The parsing loop gives up at the first datagram it refuses, and with it all that
arrived later. How a datagram is treated depends on the part of it that the
parser can walk over without taking a record: messages of another type, which
cost nine bytes, and responses without a section, which cost ten.
-/

namespace NyanSD

open Access ByteBauble

section Walk

variable (client : BBEndianness) (length : UInt32) (memory : Nat → UInt8)

/-- Positions the parser can reach without taking a record. -/
inductive BareTo : Nat → Prop
  | start : BareTo 0
  | otherType {index : Nat} : BareTo index → index < length.toNat →
      ¬ LengthTooLarge client length memory index →
      memory (index + 8) ≠ NYSDMessageType.response.toByte → BareTo (index + 9)
  | emptyResponse {index : Nat} : BareTo index → index < length.toNat →
      ¬ LengthTooLarge client length memory index →
      memory (index + 8) = NYSDMessageType.response.toByte → memory (index + 9) = 0 →
      BareTo (index + 10)

/-- The message at this position is refused before its first record: its length
field is too large, or its first section has the wrong signature. -/
def RefusedAt (index : Nat) : Prop :=
  index < length.toNat ∧
    (LengthTooLarge client length memory index ∨
      (memory (index + 8) = NYSDMessageType.response.toByte ∧ memory (index + 9) ≠ 0 ∧
        memory (index + 10) ≠ Wire.serviceSignature))

theorem length_le_length_parseServices (count index : Nat) (responses : List NYSDService) :
    responses.length ≤
      ((parseServices client count index responses).run memory).2.length := by
  induction count generalizing index responses with
  | zero => exact le_refl responses.length
  | succ count ih =>
      rw [run_parseServices_succ]
      split
      · exact le_refl responses.length
      · apply le_trans ?_ (ih _ _)
        simp

/-- Nothing that was taken is ever given back. -/
theorem length_le_length_parseMessages (fuel index : Nat) (responses : List NYSDService) :
    responses.length ≤
      ((parseMessages client length fuel index responses).run memory).2.length := by
  induction fuel generalizing index responses with
  | zero => exact le_refl responses.length
  | succ fuel ih =>
      have hsections := length_le_length_parseServices client memory
        (memory (index + 9)).toNat (index + 10) responses
      rw [run_parseMessages_succ]
      split
      · split
        · exact le_refl responses.length
        split
        · exact le_refl responses.length
        split
        · exact ih _ _
        split
        · rename_i heq
          rwa [heq] at hsections
        · rename_i heq
          rw [heq] at hsections
          exact hsections.trans (ih _ _)
      · exact le_refl responses.length

variable {length memory}

/-- The section loop takes a record as soon as the first section has the right
signature. -/
theorem length_lt_length_parseServices {count index : Nat} (responses : List NYSDService)
    (hcount : count ≠ 0) (hmark : memory index = Wire.serviceSignature) :
    responses.length <
      ((parseServices client count index responses).run memory).2.length := by
  cases count with
  | zero => exact absurd rfl hcount
  | succ count =>
      rw [run_parseServices_succ, if_neg (not_not.mpr hmark)]
      apply lt_of_lt_of_le ?_ (length_le_length_parseServices client memory count _ _)
      simp

/-- A pass over a response whose first section has the right signature takes a
record, whatever follows it. -/
theorem length_lt_length_parseMessages (hsignature : Holds memory 0 Wire.signature)
    {index : Nat} (fuel : Nat) (responses : List NYSDService) (hinside : index < length.toNat)
    (hfits : ¬ LengthTooLarge client length memory index)
    (htype : memory (index + 8) = NYSDMessageType.response.toByte)
    (hnonzero : memory (index + 9) ≠ 0)
    (hmark : memory (index + 10) = Wire.serviceSignature) :
    responses.length <
      ((parseMessages client length (fuel + 1) index responses).run memory).2.length := by
  have hcount : (memory (index + 9)).toNat ≠ 0 :=
    fun hzero => hnonzero (UInt8.toNat_inj.mp hzero)
  have htaken := length_lt_length_parseServices client responses hcount hmark
  rw [run_parseMessages_pass client fuel responses hsignature hinside, if_neg hfits,
    if_neg (not_not.mpr htype)]
  split
  · rename_i heq
    rwa [heq] at htaken
  · rename_i heq
    rw [heq] at htaken
    exact htaken.trans_le (length_le_length_parseMessages client length memory fuel _ _)

variable {client}

/-- Walking to a bare position takes nothing and leaves enough passes. -/
theorem BareTo.run_parseMessages (hsignature : Holds memory 0 Wire.signature) {index : Nat}
    (hbare : BareTo client length memory index) (responses : List NYSDService) :
    ∃ fuel, length.toNat ≤ index + fuel ∧
      (parseMessages client length length.toNat 0 responses).run memory =
        (parseMessages client length fuel index responses).run memory := by
  -- a pass costs one unit of fuel and moves the index by nine bytes or more
  induction hbare with
  | start => exact ⟨length.toNat, by omega, rfl⟩
  | @otherType index _ hinside hfits htype ih =>
      obtain ⟨fuel, hfuel, hrun⟩ := ih
      obtain ⟨fuel, rfl⟩ : ∃ rest, fuel = rest + 1 := ⟨fuel - 1, by omega⟩
      refine ⟨fuel, by omega, ?_⟩
      rw [hrun, run_parseMessages_pass client fuel responses hsignature hinside, if_neg hfits,
        if_pos htype]
  | @emptyResponse index _ hinside hfits htype hnone ih =>
      obtain ⟨fuel, hfuel, hrun⟩ := ih
      obtain ⟨fuel, rfl⟩ : ∃ rest, fuel = rest + 1 := ⟨fuel - 1, by omega⟩
      refine ⟨fuel, by omega, ?_⟩
      rw [hrun, run_parseMessages_pass client fuel responses hsignature hinside, if_neg hfits,
        if_neg (not_not.mpr htype), hnone]
      rfl

theorem RefusedAt.run_parseMessages (hsignature : Holds memory 0 Wire.signature)
    {index fuel : Nat} (hrefused : RefusedAt client length memory index)
    (hfuel : length.toNat ≤ index + fuel) (responses : List NYSDService) :
    (parseMessages client length fuel index responses).run memory = (false, responses) := by
  obtain ⟨hinside, hreason⟩ := hrefused
  obtain ⟨fuel, rfl⟩ : ∃ rest, fuel = rest + 1 := ⟨fuel - 1, by omega⟩
  rw [run_parseMessages_pass client fuel responses hsignature hinside]
  by_cases hlarge : LengthTooLarge client length memory index
  · rw [if_pos hlarge]
  · rcases hreason with hlarge' | ⟨htype, hcount, hmark⟩
    · exact absurd hlarge' hlarge
    · obtain ⟨count, hsucc⟩ : ∃ rest, (memory (index + 9)).toNat = rest + 1 :=
        Nat.exists_eq_succ_of_ne_zero fun hzero => hcount (UInt8.toNat_inj.mp hzero)
      rw [if_neg hlarge, if_neg (not_not.mpr htype), hsucc, run_parseServices_succ,
        if_pos hmark]

/-- A pass that is not refused and takes no record goes on behind the nine bytes of a message of
another type or the ten of an empty response. -/
theorem pass_of_run_parseMessages (hsignature : Holds memory 0 Wire.signature)
    {fuel index : Nat} {responses : List NYSDService} {success : Bool}
    (hinside : index < length.toNat) (hrefused : ¬ RefusedAt client length memory index)
    (hrun : (parseMessages client length (fuel + 1) index responses).run memory =
      (success, responses)) :
    ¬ LengthTooLarge client length memory index ∧
      (memory (index + 8) ≠ NYSDMessageType.response.toByte ∧
          (parseMessages client length fuel (index + 9) responses).run memory =
            (success, responses) ∨
        memory (index + 8) = NYSDMessageType.response.toByte ∧ memory (index + 9) = 0 ∧
          (parseMessages client length fuel (index + 10) responses).run memory =
            (success, responses)) := by
  have hpass := run_parseMessages_pass client fuel responses hsignature hinside
  have hfits : ¬ LengthTooLarge client length memory index :=
    fun hlarge => hrefused ⟨hinside, .inl hlarge⟩
  refine ⟨hfits, ?_⟩
  rw [if_neg hfits] at hpass
  by_cases htype : memory (index + 8) = NYSDMessageType.response.toByte
  · refine .inr ⟨htype, ?_⟩
    by_cases hnone : memory (index + 9) = 0
    · rw [if_neg (not_not.mpr htype), hnone] at hpass
      exact ⟨hnone, hpass.symm.trans hrun⟩
    · -- the record of its first section would have been taken
      have hmark : memory (index + 10) = Wire.serviceSignature := by
        by_contra hmark
        exact hrefused ⟨hinside, .inr ⟨htype, hnone, hmark⟩⟩
      have htaken := length_lt_length_parseMessages client hsignature fuel responses
        hinside hfits htype hnone hmark
      rw [hrun] at htaken
      exact absurd htaken (lt_irrefl _)
  · rw [if_pos htype] at hpass
    exact .inl ⟨htype, hpass.symm.trans hrun⟩

/-- A run from a bare position that takes nothing has walked to the end of the
datagram or to a message it refuses. -/
theorem bareTo_of_run_parseMessages (hsignature : Holds memory 0 Wire.signature)
    {fuel index : Nat} {responses : List NYSDService} {success : Bool}
    (hbare : BareTo client length memory index) (hfuel : length.toNat ≤ index + fuel)
    (hrun : (parseMessages client length fuel index responses).run memory =
      (success, responses)) :
    (success = true ∧ ∃ last, BareTo client length memory last ∧ length.toNat ≤ last) ∨
      (success = false ∧ ∃ last, BareTo client length memory last ∧
        RefusedAt client length memory last) := by
  induction fuel generalizing index with
  | zero => exact .inl ⟨(congrArg Prod.fst hrun).symm, index, hbare, by omega⟩
  | succ fuel ih =>
      by_cases hinside : index < length.toNat
      · by_cases hrefused : RefusedAt client length memory index
        · have hfalse := hrefused.run_parseMessages hsignature hfuel responses
          exact .inr ⟨congrArg Prod.fst (hrun.symm.trans hfalse), index, hbare, hrefused⟩
        obtain ⟨hfits, ⟨htype, hrest⟩ | ⟨htype, hnone, hrest⟩⟩ :=
          pass_of_run_parseMessages hsignature hinside hrefused hrun
        · exact ih (.otherType hbare hinside hfits htype) (by omega) hrest
        · exact ih (.emptyResponse hbare hinside hfits htype hnone) (by omega) hrest
      · rw [run_parseMessages_of_le client _ responses memory (by omega)] at hrun
        exact .inl ⟨(congrArg Prod.fst hrun).symm, index, hbare, by omega⟩

end Walk

/-! ## Datagrams -/

/-- A datagram as it arrives, and what its receive buffer held before. -/
structure Arrival where
  datagram : Bytes
  heap : Nat → UInt8

namespace Arrival

def received (arrival : Arrival) : ResponseStruct :=
  receiveBytes arrival.datagram arrival.heap

/-- The bytes are a concatenation of well-formed response messages. -/
def Valid (arrival : Arrival) : Prop := ∃ services, Wire.Carries arrival.datagram services

open Classical in
/-- The records of a valid datagram; an invalid one carries none. -/
noncomputable def records (arrival : Arrival) : List NYSDService :=
  if hvalid : arrival.Valid then hvalid.choose else []

variable (client : BBEndianness)

/-- The datagram is nothing but messages without a record, up to its end. -/
def RunsOut (arrival : Arrival) : Prop :=
  8 ≤ arrival.received.length.toNat ∧ Holds arrival.received.data 0 Wire.signature ∧
    ∃ index, BareTo client arrival.received.length arrival.received.data index ∧
      arrival.received.length.toNat ≤ index

/-- The datagram is too short, starts with a wrong signature, or has a message
that is refused before its first record with nothing but messages without a
record before it. -/
def Refused (arrival : Arrival) : Prop :=
  arrival.received.length.toNat < 8 ∨ ¬ Holds arrival.received.data 0 Wire.signature ∨
    ∃ index, BareTo client arrival.received.length arrival.received.data index ∧
      RefusedAt client arrival.received.length arrival.received.data index

variable {client}

theorem Valid.parseBuffer {arrival : Arrival} (hvalid : arrival.Valid)
    (hsize : arrival.datagram.length ≤ receiveSize) (responses : List NYSDService) :
    parseBuffer client arrival.received responses = (true, responses ++ arrival.records) := by
  rw [records, dif_pos hvalid]
  exact parseBuffer_carries client arrival.heap responses hvalid.choose_spec hsize

/-- A datagram that carries records carries no others. -/
theorem records_of_carries {arrival : Arrival} {services : List NYSDService}
    (hcarries : Wire.Carries arrival.datagram services)
    (hsize : arrival.datagram.length ≤ receiveSize) : arrival.records = services := by
  have hvalid : arrival.Valid := ⟨services, hcarries⟩
  have hparsed : parseBuffer .le arrival.received [] = (true, [] ++ arrival.records) :=
    hvalid.parseBuffer hsize []
  rw [received, parseBuffer_carries .le arrival.heap [] hcarries hsize] at hparsed
  simpa using hparsed.symm

theorem records_of_not_valid {arrival : Arrival} (hinvalid : ¬ arrival.Valid) :
    arrival.records = [] := dif_neg hinvalid

theorem RunsOut.parseBuffer {arrival : Arrival} (hruns : arrival.RunsOut client)
    (responses : List NYSDService) :
    parseBuffer client arrival.received responses = (true, responses) := by
  obtain ⟨hlong, hsignature, index, hbare, hend⟩ := hruns
  obtain ⟨fuel, -, hrun⟩ := hbare.run_parseMessages hsignature responses
  rw [NyanSD.parseBuffer, if_neg (by omega), hrun,
    run_parseMessages_of_le client fuel responses _ hend]

theorem Refused.parseBuffer {arrival : Arrival} (hrefused : arrival.Refused client)
    (responses : List NYSDService) :
    parseBuffer client arrival.received responses = (false, responses) := by
  unfold NyanSD.parseBuffer
  by_cases hshort : arrival.received.length.toNat < 8
  · rw [if_pos hshort]
  rw [if_neg hshort]
  by_cases hsignature : Holds arrival.received.data 0 Wire.signature
  · rcases hrefused with hshort' | hwrong | ⟨index, hbare, hrefusedAt⟩
    · exact absurd hshort' hshort
    · exact absurd hsignature hwrong
    · obtain ⟨fuel, hfuel, hrun⟩ := hbare.run_parseMessages hsignature responses
      rw [hrun, hrefusedAt.run_parseMessages hsignature hfuel]
  · obtain ⟨fuel, hfuel⟩ : ∃ rest, arrival.received.length.toNat = rest + 1 :=
      ⟨arrival.received.length.toNat - 1, by omega⟩
    have hspan : (span 0 6).run arrival.received.data ≠ Wire.signature :=
      fun heq => hsignature (run_span_eq_iff_holds.mp heq)
    rw [hfuel, run_parseMessages_succ, if_pos (by omega), if_pos hspan]

/-- A datagram from which nothing is taken has run out or was refused. -/
theorem runsOut_or_refused {arrival : Arrival} {responses : List NYSDService} {success : Bool}
    (hparsed : parseBuffer client arrival.received responses = (success, responses)) :
    (success = true ∧ arrival.RunsOut client) ∨
      (success = false ∧ arrival.Refused client) := by
  by_cases hshort : arrival.received.length.toNat < 8
  · have hrefused : arrival.Refused client := .inl hshort
    have hfalse := hrefused.parseBuffer responses
    exact .inr ⟨congrArg Prod.fst (hparsed.symm.trans hfalse), hrefused⟩
  by_cases hsignature : Holds arrival.received.data 0 Wire.signature
  · rw [NyanSD.parseBuffer, if_neg hshort] at hparsed
    rcases bareTo_of_run_parseMessages hsignature .start (by omega) hparsed with
      ⟨hsuccess, last, hbare, hend⟩ | ⟨hsuccess, last, hbare, hrefused⟩
    · exact .inl ⟨hsuccess, by omega, hsignature, last, hbare, hend⟩
    · exact .inr ⟨hsuccess, .inr (.inr ⟨last, hbare, hrefused⟩)⟩
  · have hrefused : arrival.Refused client := .inr (.inl hsignature)
    have hfalse := hrefused.parseBuffer responses
    exact .inr ⟨congrArg Prod.fst (hparsed.symm.trans hfalse), hrefused⟩

end Arrival

/-! ## The loop over the datagrams -/

section Loop

variable {client : BBEndianness}

theorem Arrival.parseBuffer_of_accepted {arrival : Arrival}
    (haccepted : arrival.Valid ∨ arrival.RunsOut client)
    (hsize : arrival.datagram.length ≤ receiveSize) (responses : List NYSDService) :
    parseBuffer client arrival.received responses = (true, responses ++ arrival.records) := by
  by_cases hvalid : arrival.Valid
  · exact hvalid.parseBuffer hsize responses
  · have hruns := haccepted.resolve_left hvalid
    rw [hruns.parseBuffer responses, records_of_not_valid hvalid, List.append_nil]

theorem Arrival.Refused.not_accepted {arrival : Arrival} (hrefused : arrival.Refused client)
    (hsize : arrival.datagram.length ≤ receiveSize) :
    ¬ (arrival.Valid ∨ arrival.RunsOut client) := by
  intro haccepted
  have htrue := parseBuffer_of_accepted haccepted hsize []
  rw [hrefused.parseBuffer []] at htrue
  exact Bool.false_ne_true (congrArg Prod.fst htrue)

variable (client) in
/-- One bad datagram does not suppress the others: at every point of the loop the
vector has grown by the records of the valid datagrams so far, in order. -/
def Unsuppressed (arrivals : List Arrival) (responses : List NYSDService) : Prop :=
  ∀ count, (parseResponses client ((arrivals.take count).map Arrival.received) responses).2 =
    responses ++ (arrivals.take count).flatMap Arrival.records

variable (client) in
/-- Every datagram is valid or runs out without a record, at least up to one that
is refused before its first record and after which no record arrives. -/
def Undisturbed (arrivals : List Arrival) : Prop :=
  (∀ a ∈ arrivals, a.Valid ∨ a.RunsOut client) ∨
    ∃ before bad after, arrivals = before ++ bad :: after ∧
      (∀ a ∈ before, a.Valid ∨ a.RunsOut client) ∧ bad.Refused client ∧
      ∀ a ∈ after, a.records = []

theorem unsuppressed_cons_of_accepted {a : Arrival} {rest : List Arrival}
    {responses : List NYSDService}
    (hparsed : parseBuffer client a.received responses = (true, responses ++ a.records)) :
    Unsuppressed client (a :: rest) responses ↔
      Unsuppressed client rest (responses ++ a.records) := by
  constructor
  · intro hall count
    have hnext := hall (count + 1)
    simpa [parseResponses, hparsed] using hnext
  · intro hall count
    cases count with
    | zero => simp [parseResponses]
    | succ count => simpa [parseResponses, hparsed] using hall count

theorem unsuppressed_cons_of_refused {a : Arrival} {rest : List Arrival}
    {responses : List NYSDService} (hrecords : a.records = [])
    (hparsed : parseBuffer client a.received responses = (false, responses)) :
    Unsuppressed client (a :: rest) responses ↔ ∀ b ∈ rest, b.records = [] := by
  constructor
  · intro hall b hmem
    have hlost := hall (rest.length + 1)
    simp only [List.take_succ_cons, List.take_length, List.map_cons, parseResponses, hparsed,
      List.flatMap_cons, hrecords, List.nil_append, List.self_eq_append_right,
      List.flatMap_eq_nil_iff] at hlost
    exact hlost b hmem
  · intro hempty count
    cases count with
    | zero => simp [parseResponses]
    | succ count =>
        simp only [List.take_succ_cons, List.map_cons, parseResponses, hparsed,
          List.flatMap_cons, hrecords, List.nil_append, List.self_eq_append_right,
          List.flatMap_eq_nil_iff]
        exact fun b hmem => hempty b (List.mem_of_mem_take hmem)

theorem undisturbed_cons_of_accepted {a : Arrival} {rest : List Arrival}
    (haccepted : a.Valid ∨ a.RunsOut client) (hsize : a.datagram.length ≤ receiveSize) :
    Undisturbed client (a :: rest) ↔ Undisturbed client rest := by
  constructor
  · rintro (hall | ⟨before, bad, after, hsplit, hbefore, hbad, hafter⟩)
    · exact .inl (List.forall_mem_cons.mp hall).2
    · cases before with
      | nil =>
          obtain ⟨rfl, -⟩ := List.cons.inj hsplit
          exact absurd haccepted (hbad.not_accepted hsize)
      | cons first before =>
          obtain ⟨rfl, hrest⟩ := List.cons.inj hsplit
          exact .inr ⟨before, bad, after, hrest, (List.forall_mem_cons.mp hbefore).2, hbad,
            hafter⟩
  · rintro (hall | ⟨before, bad, after, rfl, hbefore, hbad, hafter⟩)
    · exact .inl (List.forall_mem_cons.mpr ⟨haccepted, hall⟩)
    · exact .inr ⟨a :: before, bad, after, rfl,
        List.forall_mem_cons.mpr ⟨haccepted, hbefore⟩, hbad, hafter⟩

theorem undisturbed_cons_of_not_accepted {a : Arrival} {rest : List Arrival}
    (hbad : ¬ (a.Valid ∨ a.RunsOut client)) :
    Undisturbed client (a :: rest) ↔ a.Refused client ∧ ∀ b ∈ rest, b.records = [] := by
  constructor
  · rintro (hall | ⟨before, bad, after, hsplit, hbefore, hrefused, hafter⟩)
    · exact absurd (hall a List.mem_cons_self) hbad
    · cases before with
      | nil =>
          obtain ⟨rfl, rfl⟩ := List.cons.inj hsplit
          exact ⟨hrefused, hafter⟩
      | cons first before =>
          obtain ⟨rfl, -⟩ := List.cons.inj hsplit
          exact absurd (hbefore a List.mem_cons_self) hbad
  · rintro ⟨hrefused, hafter⟩
    exact .inr ⟨[], a, rest, rfl, by simp, hrefused, hafter⟩

/-- Exactly the undisturbed sequences of datagrams are read without losing or
inventing a record. -/
theorem unsuppressed_iff (arrivals : List Arrival) (responses : List NYSDService)
    (hsize : ∀ a ∈ arrivals, a.datagram.length ≤ receiveSize) :
    Unsuppressed client arrivals responses ↔ Undisturbed client arrivals := by
  induction arrivals generalizing responses with
  | nil =>
      refine ⟨fun _ => .inl (by simp), ?_⟩
      intro _ count
      simp [parseResponses]
  | cons a rest ih =>
      obtain ⟨ha, hrest⟩ := List.forall_mem_cons.mp hsize
      by_cases haccepted : a.Valid ∨ a.RunsOut client
      · have hparsed := Arrival.parseBuffer_of_accepted haccepted ha responses
        rw [unsuppressed_cons_of_accepted hparsed, undisturbed_cons_of_accepted haccepted ha,
          ih _ hrest]
      · have hrecords : a.records = [] :=
          Arrival.records_of_not_valid fun hvalid => haccepted (.inl hvalid)
        rw [undisturbed_cons_of_not_accepted haccepted]
        constructor
        · intro hall
          -- the first datagram took nothing, so it can only have been refused
          have hfirst : (parseBuffer client a.received responses).2 = responses := by
            simpa [parseResponses_singleton, hrecords] using hall 1
          rcases Arrival.runsOut_or_refused (Prod.ext rfl hfirst) with
            ⟨-, hruns⟩ | ⟨-, hrefused⟩
          · exact absurd (.inr hruns) haccepted
          · exact ⟨hrefused, (unsuppressed_cons_of_refused hrecords
              (hrefused.parseBuffer responses)).mp hall⟩
        · rintro ⟨hrefused, hafter⟩
          exact (unsuppressed_cons_of_refused hrecords (hrefused.parseBuffer responses)).mpr
            hafter

end Loop

/-- A datagram with one record. -/
def goodArrival : Arrival := ⟨Wire.response [printer], fun _ => 0⟩

/-- A datagram that is too short to be a message. -/
def emptyArrival : Arrival := ⟨[], fun _ => 0⟩

theorem carries_goodArrival : Wire.Carries goodArrival.datagram [printer] :=
  Wire.ResponseMessage.carries
    ⟨[printer], List.forall_mem_singleton.mpr fits_printer, by decide, by decide⟩

theorem unsuppressed_good_empty :
    Unsuppressed .le [goodArrival, emptyArrival] [] := by
  refine (unsuppressed_iff [goodArrival, emptyArrival] [] (by decide)).mpr
    (.inr ⟨[goodArrival], emptyArrival, [], rfl, ?_, .inl (by decide), by simp⟩)
  exact List.forall_mem_singleton.mpr (.inl ⟨[printer], carries_goodArrival⟩)

/-- An empty datagram in front of a good one suppresses its record. -/
theorem empty_suppresses_good :
    Wire.Carries goodArrival.datagram [printer] ∧
    parseResponses .le ([emptyArrival, goodArrival].map Arrival.received) [] = (false, []) ∧
    ¬ Unsuppressed .le [emptyArrival, goodArrival] [] := by
  have hparsed : parseResponses .le ([emptyArrival, goodArrival].map Arrival.received) [] =
      (false, []) := by decide
  refine ⟨carries_goodArrival, hparsed, ?_⟩
  intro hall
  have hlost := congrArg List.length (hall 2)
  have hgood : goodArrival.records = [printer] :=
    Arrival.records_of_carries carries_goodArrival (by decide)
  rw [List.take_of_length_le (by decide), hparsed] at hlost
  simp [hgood] at hlost

end NyanSD
