import NyanSD.Server

/-!
# What a response consists of

Every record the handler answers with leaves one piece in the body: its service
section once the address is known, and the bare section signature when the pass
gave up. Only the first kind is counted.
-/

namespace NyanSD

open Access ByteBauble

/-- The record as it is answered with: a missing address is looked up, and there
is no answer when the lookup fails or its IPv6 string is too long. -/
def filledIn (server : Server) (sender : SocketAddress) (sv : NYSDService) :
    Option NYSDService :=
  if sv.ipv4 = 0 then
    match remoteToLocalIP server.host server.interfaces sender server.uninitialised [] with
    | none => none
    | some (ipv4, ipv6) =>
        if 39 < ipv6.length then none else some { sv with ipv4 := ipv4, ipv6 := ipv6 }
  else some sv

/-- The sender can be given a local address, with an IPv6 string of legal length. -/
def LookupSucceeds (server : Server) (sender : SocketAddress) : Prop :=
  ∃ ipv4 ipv6, remoteToLocalIP server.host server.interfaces sender server.uninitialised [] =
    some (ipv4, ipv6) ∧ ipv6.length ≤ 39

/-- The bytes one pass leaves in the body. -/
def servicePiece (server : Server) (sender : SocketAddress) (sv : NYSDService) : Bytes :=
  match filledIn server sender sv with
  | none => [Wire.serviceSignature]
  | some filled => Wire.serviceSection filled

/-- The records a query with this filter selects. -/
def selected (server : Server) (filter : Bytes) : List NYSDService :=
  if filter.length ≠ 0 then server.services.filter (filterMatches filter) else server.services

/-! ## One pass -/

theorem appendAddress_eq (host : BBEndianness) (bytes : Bytes) (ipv4 : UInt32)
    (ipv6 : Bytes) :
    appendAddress host bytes ipv4 ipv6 =
      bytes ++ (MachineInt.bytes ipv4 ++ Wire.shortString ipv6) := by
  simp [appendAddress, objectBytes_toGlobal swappable_uint32, Wire.shortString]

theorem appendRest_eq (host : BBEndianness) (body : ServicesBody) (sv : NYSDService) :
    appendRest host body sv =
      { bytes := body.bytes ++ (Wire.longString sv.hostname ++ MachineInt.bytes sv.port ++
          [sv.protocol.toByte] ++ Wire.longString sv.service)
        scount := body.scount + 1 } := by
  simp [appendRest, objectBytes_toGlobal swappable_uint16, Wire.longString]

/-- Filling in leaves everything but the address as registered. -/
theorem filledIn_fields {server : Server} {sender : SocketAddress} {sv filled : NYSDService}
    (hfilled : filledIn server sender sv = some filled) :
    filled.port = sv.port ∧ filled.hostname = sv.hostname ∧ filled.service = sv.service ∧
      filled.protocol = sv.protocol := by
  unfold filledIn at hfilled
  split at hfilled
  · split at hfilled
    · cases hfilled
    · split at hfilled <;> cases hfilled
      exact ⟨rfl, rfl, rfl, rfl⟩
  · cases hfilled
    exact ⟨rfl, rfl, rfl, rfl⟩

theorem filledIn_of_ipv4_ne_zero {sv : NYSDService} (server : Server)
    (sender : SocketAddress) (hipv4 : sv.ipv4 ≠ 0) :
    filledIn server sender sv = some sv := if_neg hipv4

/-- For an IPv4 sender an address that is looked up comes without an IPv6 string. -/
theorem filledIn_ipv6 {server : Server} {a b c d : UInt8} {port : UInt16}
    {sv filled : NYSDService} (hzero : sv.ipv4 = 0)
    (hfilled : filledIn server (.ipv4 a b c d port) sv = some filled) : filled.ipv6 = [] := by
  rw [filledIn, if_pos hzero] at hfilled
  split at hfilled
  · cases hfilled
  next ipv4 ipv6 hlookup =>
    split at hfilled
    · cases hfilled
    · cases hfilled
      exact remoteToLocalIP_ipv4 hlookup

theorem isSome_filledIn_iff (server : Server) (sender : SocketAddress) (sv : NYSDService) :
    (filledIn server sender sv).isSome ↔ sv.ipv4 ≠ 0 ∨ LookupSucceeds server sender := by
  by_cases hzero : sv.ipv4 = 0
  · unfold filledIn LookupSucceeds
    cases hlookup : remoteToLocalIP server.host server.interfaces sender
        server.uninitialised [] with
    | none => simp [hzero]
    | some found =>
        obtain ⟨ipv4, ipv6⟩ := found
        by_cases hlong : 39 < ipv6.length
        · simp [hzero, hlong]
        · simp [hzero, hlong, Nat.not_lt.mp hlong]
  · simp [filledIn_of_ipv4_ne_zero server sender hzero, hzero]

/-- A pass appends the piece of its record, and counts it exactly when the
record is answered with. -/
theorem appendService_eq (server : Server) (sender : SocketAddress) (body : ServicesBody)
    (sv : NYSDService) :
    appendService server sender body sv =
      { bytes := body.bytes ++ servicePiece server sender sv
        scount := if (filledIn server sender sv).isSome then body.scount + 1
          else body.scount } := by
  by_cases hzero : sv.ipv4 = 0
  · cases hlookup : remoteToLocalIP server.host server.interfaces sender
        server.uninitialised [] with
    | none => simp [appendService, servicePiece, filledIn, hzero, hlookup]
    | some found =>
        by_cases hlong : 39 < found.2.length
        · simp [appendService, servicePiece, filledIn, hzero, hlookup, hlong]
        · simp [appendService, servicePiece, filledIn, hzero, hlookup, hlong,
            appendAddress_eq, appendRest_eq, Wire.serviceSection]
  · simp [appendService, servicePiece, filledIn, hzero, appendAddress_eq, appendRest_eq,
      Wire.serviceSection]

/-! ## The loops -/

/-- Both branches run the same passes, the filtered one over the records its
comparison selects. -/
theorem filteredBody_eq (server : Server) (sender : SocketAddress) (filter : Bytes)
    (services : List NYSDService) (body : ServicesBody) :
    filteredBody server sender filter services body =
      wildcardBody server sender (services.filter (filterMatches filter)) body := by
  induction services generalizing body with
  | nil => rfl
  | cons sv rest ih =>
      rw [filteredBody, List.filter_cons]
      split
      · rw [wildcardBody, ih]
      · exact ih body

theorem servicesBody_eq (server : Server) (sender : SocketAddress) (filter : Bytes) :
    servicesBody server sender filter =
      wildcardBody server sender (selected server filter) {} := by
  unfold servicesBody selected
  split
  · exact filteredBody_eq server sender filter server.services {}
  · rfl

/-- A run of passes concatenates the pieces and counts the answered records in
eight bits. -/
theorem wildcardBody_eq (server : Server) (sender : SocketAddress)
    (services : List NYSDService) (body : ServicesBody) :
    wildcardBody server sender services body =
      { bytes := body.bytes ++ services.flatMap (servicePiece server sender)
        scount := body.scount +
          UInt8.ofNat (services.filterMap (filledIn server sender)).length } := by
  induction services generalizing body with
  | nil => simp [wildcardBody]
  | cons sv rest ih =>
      rw [wildcardBody, ih, appendService_eq]
      cases hfilled : filledIn server sender sv with
      | none => simp [hfilled]
      | some filled =>
          simp only [Option.isSome_some, if_true, List.flatMap_cons, List.append_assoc,
            List.filterMap_cons, hfilled, List.length_cons, UInt8.ofNat_add]
          rw [UInt8.add_assoc, UInt8.add_comm 1]
          rfl

/-- The response is a message whose payload is the count of answered records and
the pieces of the selected ones. -/
theorem respond_eq (server : Server) (sender : SocketAddress) (filter : Bytes) :
    respond server sender filter =
      Wire.message .response
        (UInt8.ofNat ((selected server filter).filterMap (filledIn server sender)).length ::
          (selected server filter).flatMap (servicePiece server sender)) := by
  have hmsglen : ∀ length : Nat,
      (1 : UInt16) + (UInt16.ofNat length + 1) = UInt16.ofNat length + 1 + 1 := by
    intro length
    rw [UInt16.add_comm]
  rw [respond, servicesBody_eq, wildcardBody_eq]
  simp [assemble, Wire.message, Wire.header, objectBytes_toGlobal swappable_uint16, hmsglen]

section Filled

variable {server : Server} {sender : SocketAddress} {services : List NYSDService}

/-- Records that can all be answered with leave their sections and nothing else. -/
theorem flatMap_servicePiece_of_filled
    (hfilled : ∀ sv ∈ services, (filledIn server sender sv).isSome) :
    services.flatMap (servicePiece server sender) =
      (services.filterMap (filledIn server sender)).flatMap Wire.serviceSection := by
  induction services with
  | nil => rfl
  | cons sv rest ih =>
      obtain ⟨hsv, hrest⟩ := List.forall_mem_cons.mp hfilled
      obtain ⟨filled, hfound⟩ := Option.isSome_iff_exists.mp hsv
      rw [List.flatMap_cons, List.filterMap_cons_some hfound, List.flatMap_cons, ih hrest,
        servicePiece, hfound]

/-- Records that can all be answered with keep their positions. -/
theorem getElem?_filterMap_filledIn (i : Nat)
    (hfilled : ∀ sv ∈ services, (filledIn server sender sv).isSome) :
    (services.filterMap (filledIn server sender))[i]? =
      services[i]?.bind (filledIn server sender) := by
  induction services generalizing i with
  | nil => rfl
  | cons sv rest ih =>
      obtain ⟨hsv, hrest⟩ := List.forall_mem_cons.mp hfilled
      obtain ⟨filled, hfound⟩ := Option.isSome_iff_exists.mp hsv
      rw [List.filterMap_cons_some hfound]
      cases i with
      | zero => exact hfound.symm
      | succ i => exact ih i hrest

end Filled

/-- When every selected record can be answered with, the response is the
documented one. -/
theorem respond_of_filled {server : Server} {sender : SocketAddress} {filter : Bytes}
    (hfilled : ∀ sv ∈ selected server filter, (filledIn server sender sv).isSome) :
    respond server sender filter =
      Wire.response ((selected server filter).filterMap (filledIn server sender)) := by
  rw [respond_eq, flatMap_servicePiece_of_filled hfilled, Wire.response]

/-- Records that bring their address are answered with as they are. -/
theorem filterMap_filledIn {services : List NYSDService} (server : Server)
    (sender : SocketAddress) (hipv4 : ∀ sv ∈ services, sv.ipv4 ≠ 0) :
    services.filterMap (filledIn server sender) = services := by
  induction services with
  | nil => rfl
  | cons sv rest ih =>
      obtain ⟨hsv, hrest⟩ := List.forall_mem_cons.mp hipv4
      rw [List.filterMap_cons_some (filledIn_of_ipv4_ne_zero server sender hsv), ih hrest]

theorem respond_of_ipv4_ne_zero {server : Server} {filter : Bytes} (sender : SocketAddress)
    (hipv4 : ∀ sv ∈ selected server filter, sv.ipv4 ≠ 0) :
    respond server sender filter = Wire.response (selected server filter) := by
  rw [respond_of_filled, filterMap_filledIn server sender hipv4]
  intro sv hmem
  rw [filledIn_of_ipv4_ne_zero server sender (hipv4 sv hmem)]
  rfl

end NyanSD
