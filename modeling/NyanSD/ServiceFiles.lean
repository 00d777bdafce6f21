import NyanSD.Blanks
import NyanSD.Discovery
import NyanSD.IniDocument
import NyanSD.Startup

/-!
# From service files to clients

An administrator describes services, a section each. The text is read by the INI parser,
the daemon registers what the reader answers, and clients ask the daemon. What arrives
is what was described.
-/

namespace NyanSD.Daemon

open StdString TextLines

/-- A service as it is described in a service file. -/
structure Description where
  title : Bytes
  name : Bytes
  port : UInt16
  protocol : NYSDProtocol
  host : Bytes := []
  ipv4 : Option (UInt8 × UInt8 × UInt8 × UInt8) := none
  ipv6 : Bytes := []

def protocolText : NYSDProtocol → Bytes
  | .tcp => ascii ['t', 'c', 'p']
  | .udp => ascii ['u', 'd', 'p']
  | .all => ascii ['a', 'l', 'l']

theorem readProtocol_protocolText (protocol : NYSDProtocol) :
    readProtocol (protocolText protocol) = some protocol := by
  cases protocol with
  | tcp => rfl
  | udp => rfl
  | all => rfl

namespace Description

/-- An address that is left out is the empty text. -/
def ipv4Text (d : Description) : Bytes :=
  match d.ipv4 with
  | none => []
  | some (x, y, z, w) => dottedQuad x y z w

/-- The section it is written as. -/
def part (d : Description) : Ini.Section where
  title := d.title
  pairs :=
    [⟨ascii ['n', 'a', 'm', 'e'], d.name, []⟩,
      ⟨ascii ['p', 'o', 'r', 't'], decimal d.port.toNat, []⟩,
      ⟨ascii ['p', 'r', 'o', 't', 'o', 'c', 'o', 'l'], protocolText d.protocol, []⟩,
      ⟨ascii ['h', 'o', 's', 't'], d.host, []⟩,
      ⟨ascii ['i', 'p', 'v', '4'], d.ipv4Text, []⟩,
      ⟨ascii ['i', 'p', 'v', '6'], d.ipv6, []⟩]

/-- The service it stands for, on a host of this byte order. -/
def service (host : BBEndianness) (d : Description) : NYSDService where
  ipv4 :=
    match d.ipv4 with
    | none => 0
    | some (x, y, z, w) => ofObjectBytes host [x, y, z, w]
  ipv6 := d.ipv6
  port := d.port
  hostname := d.host
  service := d.name
  protocol := d.protocol

/-- The record that is left of it: a missing host is the daemon's own. -/
def record (host : BBEndianness) (hostName : Bytes) (d : Description) : NYSDService :=
  Registration.record ⟨d.service host, hostName⟩

/-- The description can be written down, and what it says can be registered. -/
structure Sound (d : Description) : Prop where
  written : d.part.Written
  name : d.name ≠ []
  port : d.port ≠ 0

end Description

/-- What the daemon reads of a file that describes these services. -/
def fileOf (descriptions : List Description) : INIReader :=
  (Ini.INIReader.ofFile (some (Ini.text (descriptions.map Description.part)))).view

/-- The descriptions sorted by their titles. -/
def inOrder (descriptions : List Description) : List Description :=
  descriptions.mergeSort fun d e => d.title ≤ e.title

/-- Every section describes a service, and no two titles differ in case alone. -/
structure SoundFile (descriptions : List Description) : Prop where
  sound : ∀ d ∈ descriptions, d.Sound
  titles : descriptions.Pairwise fun d e => Ini.lower d.title ≠ Ini.lower e.title

namespace SoundFile

variable {descriptions : List Description}

theorem written (hfile : SoundFile descriptions) :
    ∀ part ∈ descriptions.map Description.part, part.Written := by
  intro part hpart
  obtain ⟨d, hd, rfl⟩ := List.mem_map.mp hpart
  exact (hfile.sound d hd).written

theorem distinct (hfile : SoundFile descriptions) :
    Ini.Distinct (descriptions.map Description.part) where
  titles := List.pairwise_map.mpr hfile.titles
  names := by
    intro part hpart
    obtain ⟨d, -, rfl⟩ := List.mem_map.mp hpart
    simp only [Description.part, List.pairwise_cons, List.forall_mem_cons]
    decide

/-- The reader answers with the values of the section. -/
theorem values_eq (hfile : SoundFile descriptions) {d : Description} (hd : d ∈ descriptions)
    {pair : Ini.Pair} (hpair : pair ∈ d.part.pairs) :
    (fileOf descriptions).values d.title pair.name =
      some ([newline].intercalate (pair.value :: pair.more)) :=
  Ini.values_text hfile.written hfile.distinct (List.mem_map_of_mem hd) hpair rfl rfl

theorem get_eq (hfile : SoundFile descriptions) {d : Description} (hd : d ∈ descriptions) {i : Nat}
    {name value : Bytes} (hpair : d.part.pairs[i]? = some ⟨name, value, []⟩) :
    (fileOf descriptions).get d.title name [] = value := by
  rw [INIReader.get, hfile.values_eq hd (List.mem_of_getElem? hpair), Option.getD_some,
    List.intercalate_singleton]

theorem port_eq (hfile : SoundFile descriptions) {d : Description} (hd : d ∈ descriptions) :
    UInt16.ofInt ((fileOf descriptions).port d.title) = d.port := by
  have hfits : d.port.toNat < 2 ^ 16 := d.port.toNat_lt
  have hvalue := hfile.values_eq hd (List.mem_cons_of_mem _ List.mem_cons_self)
  rw [List.intercalate_singleton] at hvalue
  rw [INIReader.port, INIReader.getInteger_decimal 0 hvalue (by omega), UInt16.ofInt]
  have hnat : ((d.port.toNat : Int) % 2 ^ 16).toNat = d.port.toNat := by omega
  rw [hnat, UInt16.ofNat_toNat]

theorem readIpv4_eq (hfile : SoundFile descriptions) (host : BBEndianness) {d : Description}
    (hd : d ∈ descriptions) :
    readIpv4 host ((fileOf descriptions).ipv4 d.title) = .ok (d.service host).ipv4 := by
  have hfour : d.part.pairs[4]? = some ⟨ascii ['i', 'p', 'v', '4'], d.ipv4Text, []⟩ := rfl
  rw [INIReader.ipv4, hfile.get_eq hd hfour, Description.ipv4Text, Description.service]
  cases hipv4 : d.ipv4 with
  | none => rfl
  | some octets =>
      obtain ⟨x, y, z, w⟩ := octets
      have hne : dottedQuad x y z w ≠ [] := by simp [dottedQuad]
      exact (if_neg hne).trans (ipv4StringToUint_dottedQuad host x y z w)

/-- The daemon reads the service that is described. -/
theorem readService_eq (hfile : SoundFile descriptions) (host : BBEndianness) {d : Description}
    (hd : d ∈ descriptions) :
    readService host (fileOf descriptions) d.title = .ok (some (d.service host)) := by
  have hname : (fileOf descriptions).get d.title (ascii ['n', 'a', 'm', 'e']) [] = d.name :=
    hfile.get_eq hd (i := 0) rfl
  have hprotocol : (fileOf descriptions).get d.title
      (ascii ['p', 'r', 'o', 't', 'o', 'c', 'o', 'l']) [] = protocolText d.protocol :=
    hfile.get_eq hd (i := 2) rfl
  have hhost : (fileOf descriptions).get d.title (ascii ['h', 'o', 's', 't']) [] = d.host :=
    hfile.get_eq hd (i := 3) rfl
  have hipv6 : (fileOf descriptions).get d.title (ascii ['i', 'p', 'v', '6']) [] = d.ipv6 :=
    hfile.get_eq hd (i := 5) rfl
  rw [readService, hname, if_neg (hfile.sound d hd).name, hprotocol, readProtocol_protocolText,
    hfile.readIpv4_eq host hd, hhost, hipv6, hfile.port_eq hd]
  rfl

theorem perm_inOrder (descriptions : List Description) : (inOrder descriptions).Perm descriptions :=
  List.mergeSort_perm _ _

theorem pairwise_inOrder (hfile : SoundFile descriptions) :
    (inOrder descriptions).Pairwise fun d e => d.title < e.title := by
  have hperm := perm_inOrder descriptions
  have hle : (inOrder descriptions).Pairwise fun d e => decide (d.title ≤ e.title) = true := by
    apply List.pairwise_mergeSort
    · intro d e f hde hef
      exact decide_eq_true (Std.le_trans (of_decide_eq_true hde) (of_decide_eq_true hef))
    · intro d e
      simpa using Std.le_total
  -- titles that differ up to case differ, which makes the order strict
  have hlower : (inOrder descriptions).Pairwise fun d e => Ini.lower d.title ≠ Ini.lower e.title :=
    hperm.symm.pairwise hfile.titles fun hne => hne.symm
  apply hle.imp₂ _ hlower
  intro d e hle hne
  exact Std.lt_of_le_of_ne (of_decide_eq_true hle) fun heq => hne (congrArg Ini.lower heq)

/-- The sections of the reader are the titles in their order. -/
theorem sections_eq (hfile : SoundFile descriptions) :
    (fileOf descriptions).sections = (inOrder descriptions).map Description.title := by
  have hperm := perm_inOrder descriptions
  obtain ⟨hsections, hmem⟩ := Ini.sections_text hfile.written
  apply SortedSet.eq_of_mem_iff hsections (List.pairwise_map.mpr hfile.pairwise_inOrder)
  intro title
  rw [hmem, List.mem_map]
  constructor
  · rintro ⟨part, hpart, rfl, -⟩
    obtain ⟨d, hd, rfl⟩ := List.mem_map.mp hpart
    exact ⟨d, hperm.mem_iff.mpr hd, rfl⟩
  · rintro ⟨d, hd, rfl⟩
    exact ⟨d.part, List.mem_map_of_mem (hperm.mem_iff.mp hd), rfl, List.cons_ne_nil _ _⟩

/-- Every section of the file is registered. -/
theorem fates_eq (hfile : SoundFile descriptions) (host : BBEndianness) (hostName : Bytes) :
    (fileOf descriptions).fates host hostName = (inOrder descriptions).map fun d =>
      .registers ⟨fileOf descriptions, d.title⟩ (d.record host hostName) := by
  have herror : (fileOf descriptions).parseError = 0 := Ini.parseError_text hfile.written
  rw [INIReader.fates, if_neg (not_not.mpr herror), hfile.sections_eq, List.map_map]
  apply List.map_congr_left
  intro d hmem
  have hd := (perm_inOrder descriptions).mem_iff.mp hmem
  have hsound := hfile.sound d hd
  rw [Function.comp_apply, Entry.fate, hfile.readService_eq host hd]
  exact if_pos ⟨hsound.port, hsound.name⟩

end SoundFile

section

variable {files : List (List Description)}

theorem fates_files (hfiles : ∀ file ∈ files, SoundFile file) (host : BBEndianness)
    (hostName : Bytes) :
    fates host hostName (files.map fileOf) = files.flatMap fun file => (inOrder file).map fun d =>
      .registers ⟨fileOf file, d.title⟩ (d.record host hostName) := by
  rw [fates, List.flatMap_map]
  apply List.flatMap_congr
  intro file hfile
  exact (hfiles file hfile).fates_eq host hostName

theorem addServices_files (hfiles : ∀ file ∈ files, SoundFile file) (host : BBEndianness)
    (hostName : Bytes) :
    (addServices host hostName (files.map fileOf)).stopped = none ∧
      (addServices host hostName (files.map fileOf)).services =
        (files.flatMap inOrder).map (Description.record host hostName) := by
  have hfates := fates_files hfiles host hostName
  -- every fate is a registration, so none ends the daemon
  have hnone : ∀ fate ∈ fates host hostName (files.map fileOf), fate.ending = none := by
    intro fate hfate
    rw [hfates] at hfate
    obtain ⟨file, -, hmem⟩ := List.mem_flatMap.mp hfate
    obtain ⟨d, -, rfl⟩ := List.mem_map.mp hmem
    rfl
  obtain ⟨hstopped, hservices⟩ := addServices_of_no_ending hnone
  refine ⟨hstopped, hservices.trans ?_⟩
  rw [hfates, List.filterMap_flatMap, List.map_flatMap]
  apply List.flatMap_congr
  intro file _
  rw [List.filterMap_map]
  exact congrFun List.filterMap_eq_map' (inOrder file)

/-- The daemon starts up on files that describe services and has registered them all, file by
file, and within a file in the order of the titles. -/
theorem daemon_serves (hfiles : ∀ file ∈ files, SoundFile file) (host : BBEndianness)
    (hostName : Bytes) :
    let startup := addServices host hostName (files.map fileOf)
    startup.stopped = none ∧
      startup.services = (files.flatMap inOrder).map (Description.record host hostName) ∧
      ∀ file ∈ files, (inOrder file).Perm file ∧
        (inOrder file).Pairwise fun d e => d.title < e.title := by
  obtain ⟨hstopped, hservices⟩ := addServices_files hfiles host hostName
  refine ⟨hstopped, hservices, ?_⟩
  intro file hfile
  exact ⟨SoundFile.perm_inOrder file, (hfiles file hfile).pairwise_inOrder⟩

/-- A printer with its addresses, and a site on the daemon's own host. -/
def office : List Description :=
  [⟨ascii ['I', 'p', 'p'], ascii ['i', 'p', 'p'], 631, .tcp, ascii ['o', 'f', 'f', 'i', 'c', 'e'],
      some (192, 168, 1, 5), ascii [':', ':', '1']⟩,
    ⟨ascii ['W', 'e', 'b'], ascii ['h', 't', 't', 'p'], 80, .tcp, [], none, []⟩]

/-- The record of the site. -/
def site : NYSDService where
  port := 80
  hostname := ascii ['p', 'c']
  service := ascii ['h', 't', 't', 'p']
  protocol := .tcp

theorem soundFile_office : SoundFile office where
  sound := by
    have hipp : Description.Sound office[0] := ⟨by decide, by decide, by decide⟩
    have hweb : Description.Sound office[1] := ⟨by decide, by decide, by decide⟩
    intro d hmem
    rcases List.mem_pair.mp hmem with rfl | rfl
    · exact hipp
    · exact hweb
  titles := by decide

theorem inOrder_office : inOrder office = office := List.mergeSort_of_pairwise (by decide)

theorem daemon_serves_office :
    (addServices .le (ascii ['p', 'c']) ([office].map fileOf)).services =
      [printer, site] := by
  have hserves := @daemon_serves [office] (List.forall_mem_singleton.mpr soundFile_office) .le
    (ascii ['p', 'c'])
  rw [hserves.2.1, List.flatMap_singleton, inOrder_office]
  decide

/-! ## What a client finds -/

/-- A filter selects by the names that are described. -/
theorem selected_records (server : Server) (host : BBEndianness) (hostName filter : Bytes)
    {descriptions : List Description}
    (hservices : server.services = descriptions.map (Description.record host hostName)) :
    selected server filter =
      (descriptions.filter fun d => filter = [] ∨ d.name = filter).map
        (Description.record host hostName) := by
  rw [selected, hservices]
  split
  · rename_i hlength
    rw [List.filter_map]
    congr 1
    apply List.filter_congr
    intro d _
    have hne : filter ≠ [] := by simpa using hlength
    rw [Function.comp_apply, Bool.eq_iff_iff, filterMatches_iff, decide_eq_true_iff,
      Description.record, Registration.record_eq]
    exact (or_iff_right hne).symm
  · rename_i hlength
    have hempty : filter = [] := List.length_eq_zero_iff.mp (not_not.mp hlength)
    rw [List.filter_eq_self.mpr fun d _ => decide_eq_true (.inl hempty)]

/-- A description is written in a line, which bounds its texts. -/
theorem Description.Sound.length_ipv6 {d : Description} (hsound : d.Sound) :
    d.ipv6.length ≤ 255 := by
  have hpair : (⟨ascii ['i', 'p', 'v', '6'], d.ipv6, []⟩ : Ini.Pair) ∈ d.part.pairs :=
    List.mem_of_getElem? (i := 5) rfl
  have hline := hsound.written.lines _
    (List.mem_cons_of_mem _ (List.mem_flatMap.mpr ⟨_, hpair, List.mem_cons_self⟩))
  have hlength := hline.length
  rw [Ini.iniMaxLine] at hlength
  simp only [List.length_append, List.length_cons] at hlength
  omega

/-- A server of these files can answer with all its services if their addresses are known. -/
theorem known_of_files (hfiles : ∀ file ∈ files, SoundFile file) {host : BBEndianness}
    {hostName : Bytes} {server : Server} {sender : SocketAddress}
    (hservices : server.services = (addServices host hostName (files.map fileOf)).services)
    (haddresses : ∀ d ∈ files.flatten,
      (d.service host).ipv4 ≠ 0 ∨ LookupSucceeds server sender) :
    ∀ sv ∈ server.services, sv.ipv6.length ≤ 255 ∧
      (sv.ipv4 ≠ 0 ∨ LookupSucceeds server sender) := by
  intro sv hsv
  rw [hservices, (addServices_files hfiles host hostName).2] at hsv
  obtain ⟨d, hd, rfl⟩ := List.mem_map.mp hsv
  obtain ⟨file, hfile, hmem⟩ := List.mem_flatMap.mp hd
  have hmem := (SoundFile.perm_inOrder file).mem_iff.mp hmem
  rw [Description.record, Registration.record_eq]
  exact ⟨((hfiles file hfile).sound d hmem).length_ipv6,
    haddresses d (List.mem_flatten.mpr ⟨file, hfile, hmem⟩)⟩

/-- What is described in the service files arrives at a client, if messages arrive whole and the
daemon has an address for what is described without one: the client finds, for each query in
turn, the records of the descriptions that the filter names, with the address that was
described or else the daemon's own. -/
theorem descriptions_arrive (hfiles : ∀ file ∈ files, SoundFile file) (host : BBEndianness)
    (hostName : Bytes) {server : Server} {sender : SocketAddress}
    (hservices : server.services = (addServices host hostName (files.map fileOf)).services)
    (haddresses : ∀ d ∈ files.flatten,
      (d.service host).ipv4 ≠ 0 ∨ LookupSucceeds server sender)
    {queries : List NYSDQuery} (hpos : 1 ≤ queries.length) (hcount : queries.length ≤ 255)
    (hfilter : ∀ query ∈ queries, query.filter.length ≤ 255)
    (hquery : (Wire.broadcast queries).length ≤ receiveSize)
    (hanswer : ∀ query ∈ queries, (respond server sender query.filter).length ≤ receiveSize)
    (client : BBEndianness) (buffer heap : Nat → UInt8) :
    sendQuery client
        (fun msg => (clientHandler server sender msg buffer).sent.map fun answer =>
          receiveBytes answer heap) queries [] =
      (true, queries.flatMap fun query =>
        ((files.flatMap inOrder).filter fun d => query.filter = [] ∨ d.name = query.filter).filterMap
          fun d => filledIn server sender (d.record host hostName)) := by
  have hrecords := hservices.trans (addServices_files hfiles host hostName).2
  have hknown := known_of_files hfiles hservices haddresses
  rw [sendQuery_clientHandler client server sender hpos hcount hfilter hquery hknown hanswer]
  congr 1
  apply List.flatMap_congr
  intro query _
  rw [selected_records server host hostName query.filter hrecords, List.filterMap_map]
  rfl

/-- The site comes with the address of the daemon's host. -/
theorem descriptions_arrive_office :
    sendQuery .be
        (fun msg => (clientHandler (officeServer [printer, site]) laptop msg fun _ => 0).sent.map
          fun answer => receiveBytes answer fun _ => 0) [⟨.all, []⟩] [] =
      (true, [printer, { site with ipv4 := 0x0501A8C0 }]) := by
  have hfiles := List.forall_mem_singleton.mpr soundFile_office
  have hrecords : (office.map (Description.record .le (ascii ['p', 'c']))) = [printer, site] := by
    decide
  have hservices : (officeServer [printer, site]).services =
      (addServices .le (ascii ['p', 'c']) ([office].map fileOf)).services := by
    rw [(addServices_files hfiles .le _).2, List.flatMap_singleton, inOrder_office, hrecords]
    rfl
  have haddresses : ∀ d ∈ [office].flatten, (Description.service .le d).ipv4 ≠ 0 ∨
      LookupSucceeds (officeServer [printer, site]) laptop :=
    fun _ _ => .inr (lookupSucceeds_officeServer _)
  rw [descriptions_arrive hfiles .le (ascii ['p', 'c']) hservices haddresses (by decide)
    (by decide) (by decide) (by decide) (by decide), List.flatMap_singleton,
    List.flatMap_singleton, inOrder_office]
  decide

end

end NyanSD.Daemon
