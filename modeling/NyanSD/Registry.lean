import NyanSD.Service

/-!
# Registering services

A server starts with no services, and `addService` is the only way to get one in.
The name of the host is what the resolver returns at the time of the call. Nothing
bounds how many services there are or how long their strings.
-/

namespace NyanSD

/-- Whether the service was accepted, and the services afterwards. -/
def addService (hostName : Bytes) (services : List NYSDService) (service : NYSDService) :
    Bool × List NYSDService :=
  if service.port = 0 ∨ service.service = [] then (false, services)
  else
    let service := if service.hostname = [] then { service with hostname := hostName } else service
    (true, services ++ [service])

/-- A call of `addService`. -/
structure Registration where
  service : NYSDService
  hostName : Bytes

namespace Registration

/-- The port and the name are there, which is all that is required. -/
def Accepted (call : Registration) : Prop := call.service.port ≠ 0 ∧ call.service.service ≠ []

instance (call : Registration) : Decidable call.Accepted :=
  inferInstanceAs (Decidable (_ ∧ _))

/-- The record an accepted call leaves. -/
def record (call : Registration) : NYSDService :=
  if call.service.hostname = [] then { call.service with hostname := call.hostName }
  else call.service

theorem record_eq (call : Registration) :
    call.record = { call.service with
      hostname := if call.service.hostname = [] then call.hostName else call.service.hostname } := by
  unfold record
  split
  · rfl
  · rfl

end Registration

theorem addService_eq (services : List NYSDService) (call : Registration) :
    addService call.hostName services call.service =
      if call.Accepted then (true, services ++ [call.record]) else (false, services) := by
  unfold addService Registration.Accepted Registration.record
  by_cases hport : call.service.port = 0
  · simp [hport]
  · by_cases hname : call.service.service = []
    · simp [hname]
    · simp [hport, hname]

/-- The services after these calls. -/
def registry (calls : List Registration) : List NYSDService :=
  calls.foldl (fun services call => (addService call.hostName services call.service).2) []

/-- The accepted calls leave their records in the order of the calls. -/
theorem registry_eq (calls : List Registration) :
    registry calls = (calls.filter fun call => call.Accepted).map Registration.record := by
  have hstep : ∀ (rest : List Registration) (services : List NYSDService),
      rest.foldl (fun services call => (addService call.hostName services call.service).2)
          services =
        services ++ (rest.filter fun call => call.Accepted).map Registration.record := by
    intro rest
    induction rest with
    | nil => simp
    | cons call rest ih =>
        intro services
        rw [List.foldl_cons, ih, addService_eq, List.filter_cons]
        by_cases haccepted : call.Accepted
        · simp [haccepted]
        · simp [haccepted]
  exact hstep calls []

/-- The record of a call stands behind those of the calls before it. -/
theorem getElem?_registry (before after : List Registration) {call : Registration}
    (haccepted : call.Accepted) :
    (registry (before ++ call :: after))[(registry before).length]? = some call.record := by
  rw [registry_eq, List.filter_append, List.map_append, ← registry_eq before,
    List.getElem?_append_right (Nat.le_refl _), Nat.sub_self,
    List.filter_cons_of_pos (by simpa using haccepted)]
  rfl

end NyanSD
