import NyanSD.IPv4
import NyanSD.Registry
import Mathlib.Data.List.Forall2

/-!
# The service files of the daemon

At its start the daemon visits every section of every service file and registers
what it finds there. A section without a name or with an unknown protocol is
skipped; a file that cannot be parsed, a refused registration and an exception
end the daemon.
-/

namespace NyanSD.Daemon

open StdString

/-- A service file as its reader holds it: what `ParseError` returns, the sections in the
order of their set, and the text of each key that a section has. -/
structure INIReader where
  parseError : Int := 0
  sections : List Bytes
  values : Bytes → Bytes → Option Bytes

namespace INIReader

def get (serviceFile : INIReader) (title name default : Bytes) : Bytes :=
  (serviceFile.values title name).getD default

def getInteger (serviceFile : INIReader) (title name : Bytes) (default : Int) : Int :=
  (strtol (serviceFile.get title name [])).getD default

/-- A number written in decimal is returned as it is. -/
theorem getInteger_decimal {serviceFile : INIReader} {title name : Bytes} {n : Nat} (default : Int)
    (htext : serviceFile.values title name = some (decimal n)) (hfits : n < 2 ^ 63) :
    serviceFile.getInteger title name default = n := by
  rw [getInteger, get, htext, Option.getD_some, strtol_decimal hfits, Option.getD_some]

/-- The configured port; none is zero. -/
def port (serviceFile : INIReader) (title : Bytes) : Int :=
  serviceFile.getInteger title (ascii ['p', 'o', 'r', 't']) 0

/-- The configured IPv4 address; none is the empty text. -/
def ipv4 (serviceFile : INIReader) (title : Bytes) : Bytes :=
  serviceFile.get title (ascii ['i', 'p', 'v', '4']) []

end INIReader

def readProtocol (protocol : Bytes) : Option NYSDProtocol :=
  if protocol = ascii ['t', 'c', 'p'] then some .tcp
  else if protocol = ascii ['u', 'd', 'p'] then some .udp
  else if protocol = ascii ['a', 'l', 'l'] then some .all
  else none

def readIpv4 (host : BBEndianness) (ipv4 : Bytes) : Except StdException UInt32 :=
  if ipv4 = [] then .ok 0 else ipv4StringToUint host ipv4

/-- The service a section describes; `none` is a section that is skipped. The port is
narrowed when it is assigned. -/
def readService (host : BBEndianness) (serviceFile : INIReader) (title : Bytes) :
    Except StdException (Option NYSDService) :=
  let service := serviceFile.get title (ascii ['n', 'a', 'm', 'e']) []
  if service = [] then .ok none
  else
    match readProtocol
        (serviceFile.get title (ascii ['p', 'r', 'o', 't', 'o', 'c', 'o', 'l']) []) with
    | none => .ok none
    | some protocol => do
        let ipv4 ← readIpv4 host (serviceFile.ipv4 title)
        return some
          { service, protocol, ipv4
            port := UInt16.ofInt (serviceFile.port title)
            hostname := serviceFile.get title (ascii ['h', 'o', 's', 't']) []
            ipv6 := serviceFile.get title (ascii ['i', 'p', 'v', '6']) [] }

/-- Why the daemon ends before it serves. -/
inductive Stop
  | returned (code : Nat)
  | threw (e : StdException)
deriving DecidableEq, Repr

/-- A section of a service file. -/
structure Entry where
  serviceFile : INIReader
  title : Bytes

/-- `registered` is bookkeeping: the sections whose services these are, in that order. -/
structure Startup where
  services : List NYSDService := []
  registered : List Entry := []
  stopped : Option Stop := none

/-- The configured port and the registered one, for every registered section. -/
def Startup.ports (s : Startup) : List (Int × UInt16) :=
  (s.registered.zip s.services).map fun (entry, sv) =>
    (entry.serviceFile.port entry.title, sv.port)

section Loop

variable (host : BBEndianness) (hostName : Bytes)

/-- The loop over the sections of a file. -/
def addSections (serviceFile : INIReader) : List Bytes → Startup → Startup
  | [], s => s
  | title :: rest, s =>
      match readService host serviceFile title with
      | .error e => { s with stopped := some (.threw e) }
      | .ok none => addSections serviceFile rest s
      | .ok (some sv) =>
          let (added, services) := addService hostName s.services sv
          if added then
            addSections serviceFile rest
              { s with services, registered := s.registered ++ [⟨serviceFile, title⟩] }
          else { s with stopped := some (.returned 1) }

/-- The loop over the service files. -/
def addFiles : List INIReader → Startup → Startup
  | [], s => s
  | serviceFile :: rest, s =>
      if serviceFile.parseError ≠ 0 then { s with stopped := some (.returned 1) }
      else
        let s := addSections host hostName serviceFile serviceFile.sections s
        if s.stopped.isSome then s else addFiles rest s

/-- What the daemon has registered when it is done with its files. -/
def addServices (serviceFiles : List INIReader) : Startup :=
  addFiles host hostName serviceFiles {}

end Loop

/-! ## Every service comes from a section -/

variable {host : BBEndianness} {hostName : Bytes}

/-- What is read of a section that is not skipped. -/
theorem readService_some {serviceFile : INIReader} {title : Bytes} {sv : NYSDService}
    (hread : readService host serviceFile title = .ok (some sv)) :
    sv.port = UInt16.ofInt (serviceFile.port title) ∧
      readIpv4 host (serviceFile.ipv4 title) = .ok sv.ipv4 := by
  dsimp only [readService] at hread
  split at hread
  · cases hread
  split at hread
  · cases hread
  · cases hipv4 : readIpv4 host (serviceFile.ipv4 title) with
    | error e =>
        rw [hipv4] at hread
        cases hread
    | ok ipv4 =>
        rw [hipv4] at hread
        cases hread
        exact ⟨rfl, rfl⟩

variable (host hostName) in
/-- The section is not skipped, and this is the record that its service leaves. -/
def Registers (entry : Entry) (sv : NYSDService) : Prop :=
  ∃ read, readService host entry.serviceFile entry.title = .ok (some read) ∧
    Registration.Accepted ⟨read, hostName⟩ ∧ Registration.record ⟨read, hostName⟩ = sv

namespace Registers

variable {entry : Entry} {sv : NYSDService}

/-- The registered port is what is left of the configured one in 16 bits. -/
theorem port_eq (hregisters : Registers host hostName entry sv) :
    (sv.port.toNat : Int) = entry.serviceFile.port entry.title % 2 ^ 16 := by
  obtain ⟨read, hread, -, rfl⟩ := hregisters
  have hport := (readService_some hread).1
  have hnonneg := Int.emod_nonneg (entry.serviceFile.port entry.title)
    (show (2 ^ 16 : Int) ≠ 0 by decide)
  have hlt := Int.emod_lt_of_pos (entry.serviceFile.port entry.title)
    (show (0 : Int) < 2 ^ 16 by decide)
  have hfits : (entry.serviceFile.port entry.title % 2 ^ 16).toNat < UInt16.size := by
    rw [UInt16.size]
    omega
  rw [Registration.record_eq]
  dsimp only
  rw [hport, UInt16.ofInt, UInt16.toNat_ofNat_of_lt' hfits, Int.toNat_of_nonneg hnonneg]

theorem port_pos (hregisters : Registers host hostName entry sv) : 0 < sv.port.toNat := by
  obtain ⟨read, -, haccepted, rfl⟩ := hregisters
  rw [Registration.record_eq]
  exact Nat.pos_of_ne_zero fun hzero => haccepted.1 (UInt16.toNat_inj.mp hzero)

theorem ipv4_eq (hregisters : Registers host hostName entry sv) :
    readIpv4 host (entry.serviceFile.ipv4 entry.title) = .ok sv.ipv4 := by
  obtain ⟨read, hread, -, rfl⟩ := hregisters
  rw [Registration.record_eq]
  exact (readService_some hread).2

end Registers

/-- The services are the records of the registered sections, one each and in order, and every
registered section is one of the files. -/
structure Accounted (host : BBEndianness) (hostName : Bytes) (serviceFiles : List INIReader)
    (s : Startup) : Prop where
  registers : List.Forall₂ (Registers host hostName) s.registered s.services
  known : ∀ entry ∈ s.registered,
    entry.serviceFile ∈ serviceFiles ∧ entry.title ∈ entry.serviceFile.sections

variable {serviceFiles : List INIReader}

/-- Stopping changes nothing that is registered. -/
theorem Accounted.stop {s : Startup} (haccounted : Accounted host hostName serviceFiles s)
    (why : Stop) : Accounted host hostName serviceFiles { s with stopped := some why } :=
  ⟨haccounted.registers, haccounted.known⟩

/-- An accepted service is accounted for by its section. -/
theorem Accounted.register {s : Startup} {entry : Entry} {read : NYSDService}
    (haccounted : Accounted host hostName serviceFiles s)
    (hfile : entry.serviceFile ∈ serviceFiles) (htitle : entry.title ∈ entry.serviceFile.sections)
    (hread : readService host entry.serviceFile entry.title = .ok (some read))
    (haccepted : Registration.Accepted ⟨read, hostName⟩) :
    Accounted host hostName serviceFiles
      { s with services := s.services ++ [Registration.record ⟨read, hostName⟩]
               registered := s.registered ++ [entry] } where
  registers := List.rel_append haccounted.registers
    (.cons ⟨read, hread, haccepted, rfl⟩ .nil)
  known := by
    intro other hmem
    rcases List.mem_append.mp hmem with hmem | hmem
    · exact haccounted.known other hmem
    · obtain rfl := List.mem_singleton.mp hmem
      exact ⟨hfile, htitle⟩

/-- The sections of a file leave everything accounted for. -/
theorem accounted_addSections {serviceFile : INIReader} {titles : List Bytes} {s : Startup}
    (hfile : serviceFile ∈ serviceFiles) (htitles : ∀ title ∈ titles, title ∈ serviceFile.sections)
    (haccounted : Accounted host hostName serviceFiles s) :
    Accounted host hostName serviceFiles (addSections host hostName serviceFile titles s) := by
  induction titles generalizing s with
  | nil => exact haccounted
  | cons title rest ih =>
      obtain ⟨htitle, hrest⟩ := List.forall_mem_cons.mp htitles
      rw [addSections]
      split
      · exact haccounted.stop _
      · exact ih hrest haccounted
      · rename_i read hread
        rw [addService_eq s.services ⟨read, hostName⟩]
        by_cases haccepted : Registration.Accepted ⟨read, hostName⟩
        · rw [if_pos haccepted]
          exact ih hrest (haccounted.register hfile htitle hread haccepted)
        · rw [if_neg haccepted]
          exact haccounted.stop _

theorem accounted_addFiles {files : List INIReader} {s : Startup}
    (hfiles : ∀ serviceFile ∈ files, serviceFile ∈ serviceFiles)
    (haccounted : Accounted host hostName serviceFiles s) :
    Accounted host hostName serviceFiles (addFiles host hostName files s) := by
  induction files generalizing s with
  | nil => exact haccounted
  | cons serviceFile rest ih =>
      obtain ⟨hfile, hrest⟩ := List.forall_mem_cons.mp hfiles
      have hsections := accounted_addSections hfile (fun _ => id) haccounted
      rw [addFiles]
      split
      · exact haccounted.stop _
      dsimp only
      split
      · exact hsections
      · exact ih hrest hsections

/-- However the daemon ends its loops, every service is the record of a section. -/
theorem accounted_addServices (host : BBEndianness) (hostName : Bytes)
    (serviceFiles : List INIReader) :
    Accounted host hostName serviceFiles (addServices host hostName serviceFiles) :=
  accounted_addFiles (fun _ => id) ⟨.nil, List.forall_mem_nil _⟩

theorem registers_of_mem {entry : Entry} {sv : NYSDService}
    (hregistered : (entry, sv) ∈ (addServices host hostName serviceFiles).registered.zip
      (addServices host hostName serviceFiles).services) :
    Registers host hostName entry sv :=
  (List.forall₂_iff_zip.mp (accounted_addServices host hostName serviceFiles).registers).2
    hregistered

/-! ## Ports -/

/-- A registered section has the configured port exactly when the configuration names a
port. -/
theorem registered_port_iff (host : BBEndianness) (hostName : Bytes)
    (serviceFiles : List INIReader) {entry : Entry} {sv : NYSDService}
    (hregistered : (entry, sv) ∈ (addServices host hostName serviceFiles).registered.zip
      (addServices host hostName serviceFiles).services) :
    (sv.port.toNat : Int) = entry.serviceFile.port entry.title ↔
      1 ≤ entry.serviceFile.port entry.title ∧ entry.serviceFile.port entry.title ≤ 65535 := by
  have hregisters := registers_of_mem hregistered
  have hport := hregisters.port_eq
  have hpos := hregisters.port_pos
  constructor
  · intro hsame
    have hlt := sv.port.toNat_lt
    omega
  · rintro ⟨hlow, hhigh⟩
    omega

/-- A file with one section, which has a name, a protocol and these other keys. -/
def webFile (values : List (Bytes × Bytes)) : INIReader where
  sections := [ascii ['w', 'e', 'b']]
  values := fun _ name =>
    ((ascii ['n', 'a', 'm', 'e'], ascii ['h', 't', 't', 'p']) ::
      (ascii ['p', 'r', 'o', 't', 'o', 'c', 'o', 'l'], ascii ['t', 'c', 'p']) :: values).lookup name

/-- A file whose section has this port. -/
def portFile (port : Bytes) : INIReader :=
  webFile [(ascii ['p', 'o', 'r', 't'], port)]

theorem registered_port_eighty :
    ((80 : UInt16).toNat : Int) =
      (portFile (ascii ['8', '0'])).port (ascii ['w', 'e', 'b']) := by
  let entry : Entry := ⟨portFile (ascii ['8', '0']), ascii ['w', 'e', 'b']⟩
  let sv : NYSDService :=
    { port := 80, hostname := ascii ['p', 'c'], service := ascii ['h', 't', 't', 'p'],
      protocol := .tcp }
  let s := addServices .le (ascii ['p', 'c']) [portFile (ascii ['8', '0'])]
  have hregistered : (entry, sv) ∈ s.registered.zip s.services := List.mem_cons_self
  exact (registered_port_iff .le _ _ hregistered).mpr (by decide)

/-- 65616 is registered as 80, and -1 as 65535. -/
theorem port_narrowed :
    let s := addServices .le (ascii ['p', 'c'])
      [portFile (ascii ['6', '5', '6', '1', '6']), portFile (ascii ['-', '1'])]
    s.ports = [(65616, 80), (-1, 65535)] ∧
      ¬ ∀ registered ∈ s.ports, (registered.2.toNat : Int) = registered.1 := by
  decide

end NyanSD.Daemon
