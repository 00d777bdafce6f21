import NyanSD.ReceiveQueue
import NyanSD.ResponseBounds

/-!
# What the Arduino parser reads

`getResponses` looks at one message and at its first section in every queued
datagram, with the same trust in the lengths as the desktop parser, and in a block
that is exactly as long as the datagram. On a little-endian host the two parsers
read a section in the same way.
-/

namespace NyanSD.Arduino

open Access ByteBauble

/-! ## The two section parsers -/

theorem toHost_le {T : Type} [MachineInt T] (x : T) : (onHost .le).toHost x .le = x := by
  simp [toHost]

theorem parseString_eq (index : Nat) : parseString index = parseLongString .le index := by
  simp only [parseString, parseLongString, toHost_le]

/-- The desktop parser on a little-endian host returns the same record, and where the
section ends. -/
theorem parseService_eq (index : Nat) :
    parseService index = Prod.fst <$> NyanSD.parseService .le index := by
  simp only [parseService, NyanSD.parseService, parseString_eq, toHost_le, map_bind, map_pure]

/-! ## One datagram -/

/-- Datagrams that are refused before anything behind them is looked at. -/
inductive Refusal : Bytes → Prop
  | short (datagram : Bytes) : datagram.length < 8 → Refusal datagram
  | signature (datagram : Bytes) : datagram.take 6 ≠ Wire.signature → Refusal datagram
  | length (start : Bytes) (field : UInt16) (rest : Bytes) : start.length = 6 →
      rest.length < field.toNat → Refusal (start ++ MachineInt.bytes field ++ rest)
  | type (header : Bytes) (type : UInt8) (rest : Bytes) : header.length = 8 →
      type ≠ NYSDMessageType.response.toByte → Refusal (header ++ type :: rest)
  | mark (header : Bytes) (count other : UInt8) (rest : Bytes) : header.length = 8 →
      count ≠ 0 → other ≠ Wire.serviceSignature →
      Refusal (header ++ NYSDMessageType.response.toByte :: count :: other :: rest)

/-- Datagrams with nothing to read behind the count, or with a whole section there. -/
inductive Readable : Bytes → Prop
  | empty (header rest : Bytes) : header.length = 8 →
      Readable (header ++ NYSDMessageType.response.toByte :: 0 :: rest)
  | service (header : Bytes) (count : UInt8) (s : Wire.ServiceSection) (rest : Bytes) :
      header.length = 8 → count ≠ 0 →
      Readable (header ++ NYSDMessageType.response.toByte :: count :: (s.bytes ++ rest))

section Node

variable {node : ListNode}

@[simp] theorem length_datagram (node : ListNode) : node.datagram.length = node.length := by
  simp [ListNode.datagram]

theorem holds_datagram (node : ListNode) : Holds node.data 0 node.datagram := by
  rw [holds_iff_getElem]
  intro i hi
  simp [ListNode.datagram]

/-- The first three checks of a turn pass. -/
structure PassesHeader (node : ListNode) : Prop where
  long : 8 ≤ node.length
  signature : Holds node.data 0 Wire.signature
  length : ¬ node.length - 8 < ((load UInt16 .le 6).run node.data).toNat

theorem PassesHeader.not_refused (hpassed : PassesHeader node)
    (htype : node.data 8 = NYSDMessageType.response.toByte)
    (hmark : node.data 9 ≠ 0 → node.data 10 = Wire.serviceSignature) : ¬ node.Refused := by
  rintro (hshort | hwrong | hlarge | hother | ⟨hsome, hother⟩)
  · exact absurd hpassed.long (Nat.not_le.mpr hshort)
  · exact hwrong hpassed.signature
  · exact hpassed.length hlarge
  · exact hother htype
  · exact hother (hmark hsome)

/-- A turn that passes them reads on until a check fails. -/
theorem PassesHeader.within_iff (hpassed : PassesHeader node) :
    Within node.data node.length (parseNode node.length) ↔
      8 < node.length ∧ (node.data 8 = NYSDMessageType.response.toByte →
        9 < node.length ∧ (node.data 9 ≠ 0 →
          10 < node.length ∧ (node.data 10 = Wire.serviceSignature →
            Within node.data node.length (parseService 11)))) := by
  have hlong := hpassed.long
  have hspan : (span 0 6).run node.data = Wire.signature := run_span_of_holds hpassed.signature
  rw [parseNode, within_guard, within_bind, within_span, within_guard, hspan, within_bind,
    within_load, within_guard, within_bind, within_cell, run_cell, within_guard, within_bind,
    within_cell, run_cell, within_guard, within_bind, within_cell, run_cell, within_guard,
    within_bind, and_iff_left (within_pure _), MachineInt.size_uint16]
  simp only [ne_eq, not_not, forall_prop_of_true, forall_prop_of_true hpassed.length]
  rw [forall_prop_of_true (Nat.not_lt.mpr hlong), and_iff_right (by omega),
    and_iff_right (by omega)]

section Datagram

variable {datagram : Bytes} (hholds : Holds node.data 0 datagram)
  (hlength : datagram.length = node.length)

include hholds

theorem load_length {start : Bytes} {field : UInt16} {rest : Bytes} (hstart : start.length = 6)
    (hsplit : datagram = start ++ MachineInt.bytes field ++ rest) :
    (load UInt16 .le 6).run node.data = field := by
  rw [hsplit] at hholds
  have hbytes := ((holds_append _ _ _ _).mp ((holds_append _ _ _ _).mp hholds).1).2
  rw [hstart] at hbytes
  rw [← toHost_load swappable_uint16 .le hbytes, toHost_le]

include hlength

/-- A turn either ends at one of the first three checks, which all look at bytes of the
datagram, or passes them. -/
theorem header_cases :
    node.Refused ∧ Refusal datagram ∧ Within node.data node.length (parseNode node.length) ∨
      PassesHeader node := by
  by_cases hlong : 8 ≤ node.length
  swap
  · refine .inl ⟨.inl (by omega), .short datagram (by omega), ?_⟩
    rw [parseNode, within_guard]
    exact fun hpasses => absurd (Nat.not_lt.mp hpasses) hlong
  have hspan : (span 0 6).run node.data = datagram.take 6 := hholds.run_span (by omega)
  by_cases hsignature : datagram.take 6 = Wire.signature
  swap
  · refine .inl ⟨.inr (.inl ?_), .signature datagram hsignature, ?_⟩
    · intro hstart
      exact hsignature (hspan.symm.trans (run_span_of_holds hstart))
    · rw [parseNode, within_guard, within_bind, within_span, within_guard, hspan]
      exact fun _ => ⟨by omega, fun hpasses => absurd hsignature hpasses⟩
  have hstart : Holds node.data 0 Wire.signature := by
    rw [← hsignature, ← hspan]
    exact holds_span node.data 0 6
  obtain ⟨start, field, rest, hsix, hsplit⟩ := exists_header (show 8 ≤ datagram.length by omega)
  have hfield := load_length hholds hsix hsplit
  have hrest : 8 + rest.length = node.length := by
    rw [← hlength, hsplit, List.length_append, length_start_field field hsix]
  by_cases hlarge : node.length - 8 < field.toNat
  · refine .inl ⟨.inr (.inr (.inl (by rwa [hfield]))), ?_, ?_⟩
    · rw [hsplit]
      exact .length start field rest hsix (by omega)
    · rw [parseNode, within_guard, within_bind, within_span, within_guard, within_bind,
        within_load, within_guard, hfield, MachineInt.size_uint16]
      exact fun _ => ⟨by omega, fun _ => ⟨by omega, fun hpasses => absurd hlarge hpasses⟩⟩
  · exact .inr ⟨hlong, hstart, by rwa [hfield]⟩

end Datagram

/-- Behind the header a turn that stays inside its datagram meets a check or finds a
whole section. -/
theorem cases_behind_header {header rest : Bytes} (hpassed : PassesHeader node)
    (height : header.length = 8) (hlength : 8 + rest.length = node.length)
    (hholds : Holds node.data 0 (header ++ rest))
    (hwithin : 8 < node.length ∧ (node.data 8 = NYSDMessageType.response.toByte →
      9 < node.length ∧ (node.data 9 ≠ 0 →
        10 < node.length ∧ (node.data 10 = Wire.serviceSignature →
          Within node.data node.length (parseService 11))))) :
    node.Refused ∧ Refusal (header ++ rest) ∨ ¬ node.Refused ∧ Readable (header ++ rest) := by
  have hrest : Holds node.data 8 rest := hholds.behind height
  obtain ⟨htype, hwithin⟩ := hwithin
  rcases rest with _ | ⟨type, rest⟩
  · rw [List.length_nil] at hlength
    omega
  obtain ⟨hmark, hrest⟩ := hrest
  by_cases hresponse : type = NYSDMessageType.response.toByte
  swap
  · refine .inl ⟨.inr (.inr (.inr (.inl ?_))), .type header type rest height hresponse⟩
    rwa [hmark]
  subst hresponse
  obtain ⟨hcount, hwithin⟩ := hwithin hmark
  rcases rest with _ | ⟨count, rest⟩
  · rw [List.length_cons, List.length_nil] at hlength
    omega
  obtain ⟨hnumber, hrest⟩ := hrest
  by_cases hzero : count = 0
  · subst hzero
    refine .inr ⟨?_, .empty header rest height⟩
    exact hpassed.not_refused hmark fun hsome => absurd hnumber hsome
  obtain ⟨hfirst, hwithin⟩ := hwithin (by rwa [hnumber])
  rcases rest with _ | ⟨other, rest⟩
  · simp only [List.length_cons, List.length_nil] at hlength
    omega
  by_cases hservice : other = Wire.serviceSignature
  swap
  · refine .inl ⟨.inr (.inr (.inr (.inr ⟨?_, ?_⟩))), .mark header count other rest height hzero
      hservice⟩
    · rwa [hnumber]
    · rwa [hrest.1]
  subst hservice
  have hsection := hwithin hrest.1
  rw [parseService_eq, within_map] at hsection
  have hend : node.length = 10 + (Wire.serviceSignature :: rest).length := by
    simp only [List.length_cons] at hlength ⊢
    omega
  rw [hend, within_parseService_iff .le hrest.1 hrest] at hsection
  obtain ⟨s, more, hsplit⟩ := hsection
  rw [hsplit]
  refine .inr ⟨?_, .service header count s more height hzero⟩
  exact hpassed.not_refused hmark fun _ => hrest.1

section Datagram

variable {datagram : Bytes} (hholds : Holds node.data 0 datagram)
  (hlength : datagram.length = node.length)

include hholds hlength

/-- A turn that stays inside its datagram has met one of the checks or found a whole
section. -/
theorem cases_of_within (hwithin : Within node.data node.length (parseNode node.length)) :
    node.Refused ∧ Refusal datagram ∨ ¬ node.Refused ∧ Readable datagram := by
  rcases header_cases hholds hlength with ⟨hrefused, hrefusal, -⟩ | hpassed
  · exact .inl ⟨hrefused, hrefusal⟩
  have hlong := hpassed.long
  rw [← List.take_append_drop 8 datagram] at hholds ⊢
  apply cases_behind_header hpassed _ _ hholds (hpassed.within_iff.mp hwithin)
  · rw [List.length_take]
    omega
  · rw [List.length_drop]
    omega

theorem Refusal.refused (hrefusal : Refusal datagram) :
    node.Refused ∧ Within node.data node.length (parseNode node.length) := by
  rcases header_cases hholds hlength with ⟨hrefused, -, hwithin⟩ | hpassed
  · exact ⟨hrefused, hwithin⟩
  have hlong := hpassed.long
  cases hrefusal with
  | short _ hshort => omega
  | signature _ hsignature =>
      have hspan := hholds.run_span (show 6 ≤ datagram.length by omega)
      exact absurd (hspan.symm.trans (run_span_of_holds hpassed.signature)) hsignature
  | length start field rest hstart hlarge =>
      have hsmall := hpassed.length
      rw [load_length hholds hstart rfl] at hsmall
      rw [List.length_append, length_start_field field hstart] at hlength
      omega
  | type header type rest height htype =>
      obtain ⟨hmark, -⟩ : Holds node.data 8 (type :: rest) := hholds.behind height
      rw [List.length_append, List.length_cons, height] at hlength
      rw [hpassed.within_iff, hmark]
      refine ⟨.inr (.inr (.inr (.inl (by rwa [hmark])))), by omega, ?_⟩
      exact fun hresponse => absurd hresponse htype
  | mark header count other rest height hcount hother =>
      obtain ⟨hmark, hnumber, hfirst, -⟩ : Holds node.data 8
        (NYSDMessageType.response.toByte :: count :: other :: rest) := hholds.behind height
      simp only [List.length_append, List.length_cons, height] at hlength
      rw [hpassed.within_iff]
      refine ⟨.inr (.inr (.inr (.inr ⟨by rwa [hnumber], by rwa [hfirst]⟩))), by omega, ?_⟩
      refine fun _ => ⟨by omega, fun _ => ⟨by omega, fun hservice => ?_⟩⟩
      exact absurd (hfirst.symm.trans hservice) hother

theorem Readable.within (hreadable : Readable datagram) :
    Within node.data node.length (parseNode node.length) := by
  rcases header_cases hholds hlength with ⟨-, -, hwithin⟩ | hpassed
  · exact hwithin
  rw [hpassed.within_iff]
  cases hreadable with
  | empty header rest height =>
      obtain ⟨-, hnumber, -⟩ : Holds node.data 8
        (NYSDMessageType.response.toByte :: 0 :: rest) := hholds.behind height
      simp only [List.length_append, List.length_cons, height] at hlength
      exact ⟨by omega, fun _ => ⟨by omega, fun hsome => absurd hnumber hsome⟩⟩
  | service header count s rest height hcount =>
      obtain ⟨-, -, hsection⟩ : Holds node.data 8
        (NYSDMessageType.response.toByte :: count :: (s.bytes ++ rest)) := hholds.behind height
      simp only [List.length_append, List.length_cons, height] at hlength
      have hinside := s.length_bytes
      refine ⟨by omega, fun _ => ⟨by omega, fun _ => ⟨by omega, fun hmark => ?_⟩⟩⟩
      have hend : node.length = 10 + (s.bytes ++ rest).length := by
        rw [List.length_append]
        omega
      rw [parseService_eq, within_map, hend, within_parseService_iff .le hmark hsection]
      exact ⟨s, rest, rfl⟩

/-- Behind a turn that is refused nothing is read. -/
theorem within_iff_of_refused (hrefused : node.Refused) (behind : Prop) :
    Within node.data node.length (parseNode node.length) ↔
      Refusal datagram ∨ (Readable datagram ∧ behind) := by
  constructor
  · intro hwithin
    rcases cases_of_within hholds hlength hwithin with ⟨-, hrefusal⟩ | ⟨haccepted, -⟩
    · exact .inl hrefusal
    · exact absurd hrefused haccepted
  · rintro (hrefusal | ⟨hreadable, -⟩)
    · exact (hrefusal.refused hholds hlength).2
    · exact hreadable.within hholds hlength

/-- Behind a turn that is accepted the next one is read. -/
theorem within_and_iff_of_accepted (haccepted : ¬ node.Refused) (behind : Prop) :
    Within node.data node.length (parseNode node.length) ∧ behind ↔
      Refusal datagram ∨ (Readable datagram ∧ behind) := by
  constructor
  · rintro ⟨hwithin, hbehind⟩
    rcases cases_of_within hholds hlength hwithin with ⟨hrefused, -⟩ | ⟨-, hreadable⟩
    · exact absurd hrefused haccepted
    · exact .inr ⟨hreadable, hbehind⟩
  · rintro (hrefusal | ⟨hreadable, hbehind⟩)
    · exact absurd (hrefusal.refused hholds hlength).1 haccepted
    · exact ⟨hreadable.within hholds hlength, hbehind⟩

end Datagram

end Node

/-! ## The loop over the nodes -/

/-- A turn of the loop: the node it looks at, and the offsets it reads in its block. -/
structure Turn where
  node : ListNode
  offsets : List Nat

/-- The turns the loop makes, down to the first one that returns an error code. -/
def turns : Nat → Client → List Turn
  | 0, _ => []
  | remaining + 1, c =>
      match deref c.heap c.response with
      | .error _ => []
      | .ok (old, node) =>
          ⟨node, (parseNode node.length).reads node.data⟩ ::
            match (parseNode node.length).run node.data with
            | .error _ => []
            | .ok _ =>
                turns remaining
                  { c with heap := Function.update c.heap old none
                           response := if node.next.isSome then node.next else c.response }

/-- The turns of a call of `getResponses`. -/
def Client.turns (c : Client) : List Turn :=
  if !c.received then [] else Arduino.turns c.count c

/-- Every datagram up to the first one that is refused is readable. -/
def ReadableQueue : List Bytes → Prop
  | [] => True
  | datagram :: rest => Refusal datagram ∨ (Readable datagram ∧ ReadableQueue rest)

/-- No turn reads outside the block of its node. -/
def ReadsInside (turns : List Turn) : Prop :=
  ∀ turn ∈ turns, ∀ offset ∈ turn.offsets, offset < turn.node.length

theorem readsInside_nil : ReadsInside [] := List.forall_mem_nil _

theorem readsInside_cons (turn : Turn) (rest : List Turn) :
    ReadsInside (turn :: rest) ↔
      (∀ offset ∈ turn.offsets, offset < turn.node.length) ∧ ReadsInside rest :=
  List.forall_mem_cons

theorem readsInside_turns_iff {c : Client} {nodes : List (Address × Bytes)}
    (hchain : DatagramChain c.heap c.response nodes) :
    ReadsInside (turns nodes.length c) ↔ ReadableQueue (nodes.map Prod.snd) := by
  induction nodes generalizing c with
  | nil => exact iff_of_true readsInside_nil trivial
  | cons entry rest ih =>
      obtain ⟨address, content⟩ := entry
      obtain ⟨node, hresponse, hnode, rfl⟩ := hchain.head_node
      rw [hresponse] at hchain
      have hderef : deref c.heap c.response = .ok (address, node) := by
        simp [hresponse, deref, hnode]
      have hholds := holds_datagram node
      have hlength := length_datagram node
      rw [List.length_cons, turns, hderef, List.map_cons, ReadableQueue]
      dsimp only
      rw [readsInside_cons]
      by_cases hrefused : node.Refused
      · obtain ⟨code, hcode⟩ := node.refused_iff.mp hrefused
        rw [hcode]
        exact (and_iff_left readsInside_nil).trans
          (within_iff_of_refused hholds hlength hrefused _)
      · cases hparsed : (parseNode node.length).run node.data with
        | error code => exact absurd (node.refused_iff.mpr ⟨code, hparsed⟩) hrefused
        | ok found =>
            have hrest : ReadsInside (turns rest.length
                { c with heap := Function.update c.heap address none,
                         response := if node.next.isSome then node.next else c.response }) ↔
                ReadableQueue (rest.map Prod.snd) := by
              rw [hresponse]
              rcases chain_behind hnode hchain with rfl | hbehind
              · exact iff_of_true readsInside_nil trivial
              · exact ih hbehind
            dsimp only
            rw [hrest]
            exact within_and_iff_of_accepted hholds hlength hrefused _

/-- `getResponses` reads inside the blocks of a queue exactly when each datagram up to
the first one it refuses is as long as what it says about its first section. -/
theorem readsInside_iff {c : Client} {nodes : List (Address × Bytes)} (hqueue : Queue c nodes) :
    ReadsInside c.turns ↔ ReadableQueue (nodes.map Prod.snd) := by
  cases hreceived : c.received with
  | true =>
      have hturns : c.turns = turns nodes.length c := by
        simp [Client.turns, hreceived, hqueue.count]
      rw [hturns, readsInside_turns_iff hqueue.chain]
  | false =>
      have hturns : c.turns = [] := by simp [Client.turns, hreceived]
      have hcount : c.count = 0 := by
        by_contra hsome
        have hflag := hqueue.received.mpr (Nat.pos_of_ne_zero hsome)
        rw [hreceived] at hflag
        cases hflag
      rw [hturns, hqueue.nil_iff.mpr hcount]
      exact iff_of_true nofun trivial

/-- A client whose queue holds one datagram. -/
def holding (datagram : Bytes) (before : Nat → UInt8) : Client where
  heap := Function.update (fun _ => none) 1 (some (newNode datagram before))
  response := some 1
  last := some 1
  count := 1
  received := true

theorem queue_holding (datagram : Bytes) (before : Nat → UInt8) :
    Queue (holding datagram before) [(1, datagram)] := by
  have hnode : (holding datagram before).heap 1 = some (newNode datagram before) := by
    simp [holding]
  have hchain : DatagramChain (holding datagram before).heap (some 1)
      [(1, (newNode datagram before).datagram)] := .cons hnode .nil
  rw [datagram_newNode] at hchain
  exact ⟨hchain, fun _ => rfl, rfl, by simp [holding]⟩

theorem readsInside_printer : ReadsInside (holding (Wire.response [printer]) fun _ => 0).turns := by
  have hsplit : Wire.response [printer] = Wire.header 27 ++ NYSDMessageType.response.toByte :: 1 ::
      ((Wire.sectionOf printer fits_printer).bytes ++ []) := by
    decide
  have hreadable : Readable (Wire.response [printer]) := by
    rw [hsplit]
    exact .service _ 1 _ [] (Wire.length_header 27) (by decide)
  exact (readsInside_iff (queue_holding _ _)).mpr (.inr ⟨hreadable, trivial⟩)

/-- Of a header alone the type byte is read, one byte behind the block. -/
theorem header_read_beyond :
    Queue (holding (Wire.header 0) fun _ => 0) [(1, Wire.header 0)] ∧
    (∃ turn ∈ (holding (Wire.header 0) fun _ => 0).turns,
      turn.node.length = 8 ∧ 8 ∈ turn.offsets) ∧
    ¬ ReadsInside (holding (Wire.header 0) fun _ => 0).turns := by
  have hturn : ∃ turn ∈ (holding (Wire.header 0) fun _ => 0).turns,
      turn.node.length = 8 ∧ 8 ∈ turn.offsets := by
    decide
  refine ⟨queue_holding _ _, hturn, ?_⟩
  intro hinside
  obtain ⟨turn, hmem, hlength, hoffset⟩ := hturn
  have hbelow := hinside turn hmem 8 hoffset
  omega

end NyanSD.Arduino
