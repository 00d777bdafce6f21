import NyanSD.QueryRoundTrip

/-!
# The two branches of the handler

The handler writes the service sections in two places: once for a query with a filter,
once for a query without. The two copies are transcribed here one by one, statement by
statement, and compared with the one loop body that stands for both of them elsewhere.
-/

namespace NyanSD

open ByteBauble StdString

variable (server : Server) (sender : SocketAddress)

/-- The branch for `qlen != 0`. -/
def filteredBranch (filter : Bytes) : ServicesBody := Id.run do
  let bb := onHost server.host
  let he := bb.getHostEndian
  let mut servicesBody : Bytes := []
  let mut scount : UInt8 := 0
  for service in server.services do
    if comparesEqual filter 0 filter.length service.service then
      servicesBody := servicesBody ++ [Wire.serviceSignature]
      if service.ipv4 = 0 then
        match remoteToLocalIP server.host server.interfaces sender server.uninitialised [] with
        | none => continue
        | some (ipv4, ipv6) =>
            if ipv6.length > 39 then continue
            let ipv4 := bb.toGlobal ipv4 he
            servicesBody := servicesBody ++ objectBytes server.host ipv4
            let ipv6len := UInt8.ofNat ipv6.length
            servicesBody := servicesBody ++ [ipv6len]
            servicesBody := servicesBody ++ ipv6
      else
        let ipv4 := bb.toGlobal service.ipv4 he
        servicesBody := servicesBody ++ objectBytes server.host ipv4
        let ipv6len := UInt8.ofNat service.ipv6.length
        servicesBody := servicesBody ++ [ipv6len]
        servicesBody := servicesBody ++ service.ipv6
      let hlen := UInt16.ofNat service.hostname.length
      let hlen := bb.toGlobal hlen he
      servicesBody := servicesBody ++ objectBytes server.host hlen
      servicesBody := servicesBody ++ service.hostname
      let port := bb.toGlobal service.port he
      servicesBody := servicesBody ++ objectBytes server.host port
      servicesBody := servicesBody ++ [service.protocol.toByte]
      let snlen := UInt16.ofNat service.service.length
      let snlen := bb.toGlobal snlen he
      servicesBody := servicesBody ++ objectBytes server.host snlen
      servicesBody := servicesBody ++ service.service
      scount := scount + 1
  return ⟨servicesBody, scount⟩

/-- The branch for `qlen == 0`. -/
def wildcardBranch : ServicesBody := Id.run do
  let bb := onHost server.host
  let he := bb.getHostEndian
  let mut servicesBody : Bytes := []
  let mut scount : UInt8 := 0
  for service in server.services do
    servicesBody := servicesBody ++ [Wire.serviceSignature]
    if service.ipv4 = 0 then
      match remoteToLocalIP server.host server.interfaces sender server.uninitialised [] with
      | none => continue
      | some (ipv4, ipv6) =>
          if ipv6.length > 39 then continue
          let ipv4 := bb.toGlobal ipv4 he
          servicesBody := servicesBody ++ objectBytes server.host ipv4
          let ipv6len := UInt8.ofNat ipv6.length
          servicesBody := servicesBody ++ [ipv6len]
          servicesBody := servicesBody ++ ipv6
    else
      let ipv4 := bb.toGlobal service.ipv4 he
      servicesBody := servicesBody ++ objectBytes server.host ipv4
      let ipv6len := UInt8.ofNat service.ipv6.length
      servicesBody := servicesBody ++ [ipv6len]
      servicesBody := servicesBody ++ service.ipv6
    let hlen := UInt16.ofNat service.hostname.length
    let hlen := bb.toGlobal hlen he
    servicesBody := servicesBody ++ objectBytes server.host hlen
    servicesBody := servicesBody ++ service.hostname
    let port := bb.toGlobal service.port he
    servicesBody := servicesBody ++ objectBytes server.host port
    servicesBody := servicesBody ++ [service.protocol.toByte]
    let snlen := UInt16.ofNat service.service.length
    let snlen := bb.toGlobal snlen he
    servicesBody := servicesBody ++ objectBytes server.host snlen
    servicesBody := servicesBody ++ service.service
    scount := scount + 1
  return ⟨servicesBody, scount⟩

/-! ## One loop body for both -/

/-- A loop that always goes on to the next service folds its body over them. -/
theorem forIn_eq_foldl (next : ServicesBody → NYSDService → ServicesBody)
    {body : NYSDService → Bytes × UInt8 → Id (ForInStep (Bytes × UInt8))}
    (hbody : ∀ sv s, body sv (s.bytes, s.scount) =
      pure (.yield ((next s sv).bytes, (next s sv).scount)))
    (services : List NYSDService) (s : ServicesBody) :
    forIn services (s.bytes, s.scount) body =
      pure ((services.foldl next s).bytes, (services.foldl next s).scount) := by
  induction services generalizing s with
  | nil => rfl
  | cons sv rest ih =>
      rw [List.forIn_cons, hbody]
      exact ih (next s sv)

theorem wildcardBody_eq_foldl (services : List NYSDService) (body : ServicesBody) :
    wildcardBody server sender services body =
      services.foldl (appendService server sender) body := by
  induction services generalizing body with
  | nil => rfl
  | cons sv rest ih => exact ih _

theorem filteredBody_eq_foldl (filter : Bytes) (services : List NYSDService)
    (body : ServicesBody) :
    filteredBody server sender filter services body =
      services.foldl (fun body sv =>
        if filterMatches filter sv then appendService server sender body sv else body) body := by
  induction services generalizing body with
  | nil => rfl
  | cons sv rest ih =>
      rw [filteredBody, List.foldl_cons]
      split
      · exact ih _
      · exact ih _

/-- The copy in the branch without a filter. -/
theorem wildcardBranch_eq :
    wildcardBranch server sender = wildcardBody server sender server.services {} := by
  rw [wildcardBody_eq_foldl]
  unfold wildcardBranch
  refine congrArg (fun s : Bytes × UInt8 => ServicesBody.mk s.1 s.2)
    (forIn_eq_foldl (appendService server sender) ?_ server.services {})
  intro sv s
  unfold appendService
  by_cases hzero : sv.ipv4 = 0
  · rcases hlookup : remoteToLocalIP server.host server.interfaces sender server.uninitialised []
      with _ | ⟨ipv4, ipv6⟩
    · simp only [hzero, if_true]
    · by_cases hlong : 39 < ipv6.length
      · simp only [hzero, if_true, hlong]
      · simp only [hzero, if_true, hlong, if_false]
        rfl
  · simp only [hzero, if_false]
    rfl

/-- The copy in the branch with a filter. -/
theorem filteredBranch_eq (filter : Bytes) :
    filteredBranch server sender filter =
      filteredBody server sender filter server.services {} := by
  rw [filteredBody_eq_foldl]
  unfold filteredBranch
  refine congrArg (fun s : Bytes × UInt8 => ServicesBody.mk s.1 s.2)
    (forIn_eq_foldl (fun body sv =>
      if filterMatches filter sv then appendService server sender body sv else body)
      ?_ server.services {})
  intro sv s
  unfold filterMatches
  by_cases hmatch : comparesEqual filter 0 filter.length sv.service = true
  · rw [if_pos hmatch]
    unfold appendService
    by_cases hzero : sv.ipv4 = 0
    · rcases hlookup : remoteToLocalIP server.host server.interfaces sender server.uninitialised []
        with _ | ⟨ipv4, ipv6⟩
      · simp only [hmatch, hzero, if_true]
      · by_cases hlong : 39 < ipv6.length
        · simp only [hmatch, hzero, if_true, hlong]
        · simp only [hmatch, hzero, if_true, hlong, if_false]
          rfl
    · simp only [hmatch, hzero, if_true, if_false]
      rfl
  · simp only [hmatch, Bool.false_eq_true, if_false]

/-! ## The same response -/

/-- The server with only the records that the comparison of the filtered branch selects. -/
def Server.restrictedTo (server : Server) (filter : Bytes) : Server :=
  { server with services := server.services.filter (filterMatches filter) }

/-- The passes of the loop do not look at the other records. -/
theorem wildcardBody_restrictedTo (filter : Bytes) (services : List NYSDService)
    (body : ServicesBody) :
    wildcardBody (server.restrictedTo filter) sender services body =
      wildcardBody server sender services body := by
  rw [wildcardBody_eq_foldl, wildcardBody_eq_foldl]
  rfl

theorem filteredBranch_eq_wildcardBranch (filter : Bytes) :
    filteredBranch server sender filter =
      wildcardBranch (server.restrictedTo filter) sender := by
  rw [filteredBranch_eq, wildcardBranch_eq, filteredBody_eq, wildcardBody_restrictedTo]
  rfl

theorem respond_eq_filteredBranch {filter : Bytes} (hfilter : filter ≠ []) :
    respond server sender filter =
      assemble server.host (filteredBranch server sender filter) := by
  have hlength : filter.length ≠ 0 := by
    intro hzero
    exact hfilter (List.length_eq_zero_iff.mp hzero)
  rw [filteredBranch_eq, respond, servicesBody, if_pos hlength]

theorem respond_eq_wildcardBranch :
    respond server sender [] = assemble server.host (wildcardBranch server sender) := by
  rw [wildcardBranch_eq]
  rfl

variable {server sender}

/-- The answer to a section with a filter is assembled from what the filtered branch
builds. The wildcard branch builds the same on the server that has only the selected
records, and the message assembled from it answers a wildcard there. -/
theorem filtered_eq_wildcard {datagram : Bytes} {buffer : Nat → UInt8} {index : Nat}
    {answers : List Answer} {a : Answer}
    (hhandled : clientHandler server sender datagram buffer = .sections index answers)
    (hanswer : a ∈ answers) (hfilter : a.filter ≠ []) :
    a.msg = assemble server.host (filteredBranch server sender a.filter) ∧
      filteredBranch server sender a.filter =
        wildcardBranch (server.restrictedTo a.filter) sender ∧
      assemble server.host (wildcardBranch (server.restrictedTo a.filter) sender) =
        respond (server.restrictedTo a.filter) sender [] := by
  refine ⟨?_, filteredBranch_eq_wildcardBranch server sender a.filter, ?_⟩
  · rw [clientHandler_answers server sender hhandled a hanswer]
    exact respond_eq_filteredBranch server sender hfilter
  · exact (respond_eq_wildcardBranch (server.restrictedTo a.filter) sender).symm

/-- A query for the printer by its name finds what a wildcard finds where there is
nothing else. -/
theorem filtered_eq_wildcard_printer :
    respond (serverOf .le [{ printer with service := [] }, printer]) laptop printer.service =
      respond (serverOf .le [printer]) laptop [] := by
  have hhandled : clientHandler (serverOf .le [{ printer with service := [] }, printer]) laptop
      (Wire.broadcast [⟨.all, printer.service⟩]) (fun _ => 0) = .sections 16
        [⟨NYSDProtocol.all.toByte, printer.service,
          respond (serverOf .le [{ printer with service := [] }, printer]) laptop
            printer.service⟩] := by
    decide
  obtain ⟨hfiltered, hsame, hwildcard⟩ :=
    filtered_eq_wildcard hhandled List.mem_cons_self (by decide)
  exact hfiltered.trans ((congrArg _ hsame).trans hwildcard)

end NyanSD
