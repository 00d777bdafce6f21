import NyanSD.AddressRoundTrip

/-!
# Which local address a sender is given

The search compares texts: an interface matches when one of its addresses starts
like the sender's, up to and including the third dot. Which address is returned is
decided by a second search, for the first IPv4 address of that interface, so an
interface with several networks can answer with an address of another one.
-/

namespace NyanSD

open StdString

/-- The text of the sender's network. -/
def networkText (a b c : UInt8) : Bytes :=
  decimal a.toNat ++ dot :: (decimal b.toNat ++ dot :: (decimal c.toNat ++ [dot]))

theorem dottedQuad_eq (a b c d : UInt8) :
    dottedQuad a b c d = networkText a b c ++ decimal d.toNat := by
  simp [dottedQuad, networkText]

/-- What the sender's text is cut down to. -/
theorem lanBase_ipv4 (a b c d : UInt8) (port : UInt16) :
    lanBase (.ipv4 a b c d port) = networkText a b c := by
  obtain ⟨network, hnetwork⟩ : ∃ text, text = decimal a.toNat ++ dot ::
    (decimal b.toNat ++ dot :: decimal c.toNat) := ⟨_, rfl⟩
  have hbase : networkText a b c = network ++ [dot] := by simp [networkText, hnetwork]
  have hquad : dottedQuad a b c d = network ++ [dot] ++ decimal d.toNat := by
    rw [dottedQuad_eq, hbase]
  have htext : (SocketAddress.ipv4 a b c d port).toString =
      network ++ dot :: (decimal d.toNat ++ colon :: decimal port.toNat) := by
    simp [SocketAddress.toString, hquad]
  have hfree : dot ∉ decimal d.toNat ++ colon :: decimal port.toNat := by
    intro hmem
    rcases List.mem_append.mp hmem with hoctet | hrest
    · exact dot_not_mem_decimal _ hoctet
    rcases List.mem_cons.mp hrest with hcolon | hport
    · exact absurd hcolon (by decide)
    · exact dot_not_mem_decimal _ hport
  have hlength := length_dottedQuad_le a b c d
  simp only [hquad, List.length_append] at hlength
  have hend : advance network.length 1 = (network ++ [dot]).length := by
    rw [advance, Nat.mod_eq_of_lt (by omega), List.length_append, List.length_singleton]
  rw [lanBase, htext, findLastOf_separator network hfree, hend, hbase,
    List.append_cons network dot (decimal d.toNat ++ colon :: decimal port.toNat), List.take_left]

/-- An address prints with the text of a network in front exactly when its first three
octets are those of the network: no octet prints as the beginning of another. -/
theorem networkText_isPrefix_iff {a b c x y z w : UInt8} :
    networkText a b c <+: dottedQuad x y z w ↔ x = a ∧ y = b ∧ z = c := by
  constructor
  · rintro ⟨rest, hrest⟩
    have hfree : ∀ octet : UInt8, dot ∉ decimal octet.toNat :=
      fun octet => dot_not_mem_decimal octet.toNat
    have hoctet : ∀ {first second : UInt8}, decimal first.toNat = decimal second.toNat →
        second = first := fun heq => (UInt8.toNat_inj.mp (decimal_injective heq)).symm
    simp only [networkText, dottedQuad, List.append_assoc, List.cons_append,
      List.nil_append] at hrest
    -- octet by octet, each up to the first dot that is left
    obtain ⟨hfirst, hrest⟩ := append_separator_inj (hfree a) (hfree x) hrest
    obtain ⟨hsecond, hrest⟩ := append_separator_inj (hfree b) (hfree y) hrest
    obtain ⟨hthird, -⟩ := append_separator_inj (hfree c) (hfree z) hrest
    exact ⟨hoctet hfirst, hoctet hsecond, hoctet hthird⟩
  · rintro ⟨rfl, rfl, rfl⟩
    exact ⟨decimal w.toNat, (dottedQuad_eq x y z w).symm⟩

/-- An IPv6 address prints with a colon in front of any dot. -/
def IPAddress.PrintsAsKnown : IPAddress → Prop
  | .ipv4 .. => True
  | .ipv6 text => ∃ before after, text = before ++ colon :: after ∧ dot ∉ before

/-- The address is an IPv4 address of the network. -/
def IPAddress.OnNetwork (a b c : UInt8) (ip : IPAddress) : Prop := ∃ d, ip = .ipv4 a b c d

def NetworkInterface.OnNetwork (a b c : UInt8) (ifc : NetworkInterface) : Prop :=
  ∃ ip ∈ ifc.addressList, ip.OnNetwork a b c

theorem colon_not_mem_networkText (a b c : UInt8) : colon ∉ networkText a b c := by
  have hfree : ∀ octet : UInt8, colon ∉ decimal octet.toNat :=
    fun octet hmem => absurd (isDigit_of_mem_decimal hmem) (by decide)
  have hdot : colon ≠ dot := by decide
  simp [networkText, hfree, hdot]

/-- The comparison of texts finds the IPv4 addresses of the sender's network. -/
theorem comparesEqual_networkText_iff {a b c : UInt8} {ip : IPAddress}
    (hprints : ip.PrintsAsKnown) :
    comparesEqual (networkText a b c) 0 (networkText a b c).length
        (ip.toString.take (networkText a b c).length) = true ↔ ip.OnNetwork a b c := by
  rw [comparesEqual, List.drop_zero, List.take_length, beq_iff_eq, ← List.prefix_iff_eq_take]
  cases ip with
  | ipv4 x y z w =>
      rw [IPAddress.toString, networkText_isPrefix_iff]
      constructor
      · rintro ⟨rfl, rfl, rfl⟩
        exact ⟨w, rfl⟩
      · rintro ⟨d, heq⟩
        cases heq
        exact ⟨rfl, rfl, rfl⟩
  | ipv6 text =>
      refine iff_of_false ?_ (fun hnetwork => nomatch hnetwork.choose_spec)
      obtain ⟨before, after, htext, hfree⟩ := hprints
      rintro ⟨rest, hrest⟩
      have hsplit : (networkText a b c) ++ rest = before ++ colon :: after := hrest.trans htext
      rcases List.append_eq_append_iff.mp hsplit with ⟨more, hbefore, -⟩ | ⟨more, hnetwork, hmore⟩
      · have hdot : dot ∈ networkText a b c := by simp [networkText]
        exact hfree (hbefore ▸ List.mem_append_left more hdot)
      · cases more with
        | nil =>
            have hdot : dot ∈ networkText a b c := by simp [networkText]
            rw [hnetwork, List.append_nil] at hdot
            exact hfree hdot
        | cons head tail =>
            obtain ⟨rfl, -⟩ := List.cons.inj hmore
            apply colon_not_mem_networkText a b c
            rw [hnetwork]
            simp

/-! ## The two searches -/

/-- The first IPv4 address in a list. -/
def FirstIPv4 (addresses : List IPAddress) (x y z w : UInt8) : Prop :=
  ∃ skipped rest, addresses = skipped ++ .ipv4 x y z w :: rest ∧
    ∀ ip ∈ skipped, ∃ text, ip = .ipv6 text

theorem printedToUint_eq (host : BBEndianness) (a b c d : UInt8) :
    printedToUint host a b c d = ofObjectBytes host [a, b, c, d] := by
  simp [printedToUint, ipv4StringToUint_dottedQuad, Except.toOption]

theorem ipv4UintToString_printedToUint (host : BBEndianness) (a b c d : UInt8) :
    ipv4UintToString host (printedToUint host a b c d) = dottedQuad a b c d := by
  rw [printedToUint_eq, ipv4UintToString_ofObjectBytes, if_pos rfl]

theorem exists_firstIPv4 (host : BBEndianness) {addresses : List IPAddress} {ip : IPAddress}
    {a b c : UInt8} (hmem : ip ∈ addresses) (hnetwork : ip.OnNetwork a b c) :
    ∃ x y z w, FirstIPv4 addresses x y z w ∧
      firstIPv4 host addresses = some (printedToUint host x y z w) := by
  induction addresses with
  | nil => cases hmem
  | cons head rest ih =>
      cases head with
      | ipv4 x y z w => exact ⟨x, y, z, w, ⟨[], rest, rfl, List.forall_mem_nil _⟩, rfl⟩
      | ipv6 text =>
          have hrest : ip ∈ rest := by
            rcases List.mem_cons.mp hmem with rfl | hrest
            · obtain ⟨d, heq⟩ := hnetwork
              cases heq
            · exact hrest
          obtain ⟨x, y, z, w, ⟨skipped, more, rfl, hskipped⟩, hfound⟩ := ih hrest
          refine ⟨x, y, z, w, ⟨.ipv6 text :: skipped, more, rfl, ?_⟩, hfound⟩
          exact List.forall_mem_cons.mpr ⟨⟨text, rfl⟩, hskipped⟩

/-- The address that answers for a network: the first IPv4 address of the first
interface that is on it. -/
def AnswersFor (interfaces : List NetworkInterface) (a b c x y z w : UInt8) : Prop :=
  ∃ before ifc after, interfaces = before ++ ifc :: after ∧
    (∀ other ∈ before, ¬ other.OnNetwork a b c) ∧ ifc.OnNetwork a b c ∧
    FirstIPv4 ifc.addressList x y z w

/-- An interface matches when it is on the sender's network. -/
theorem any_comparesEqual_iff {ifc : NetworkInterface}
    (hprints : ∀ ip ∈ ifc.addressList, ip.PrintsAsKnown) (a b c : UInt8) :
    (ifc.addressList.any fun ip => comparesEqual (networkText a b c) 0
        (networkText a b c).length (ip.toString.take (networkText a b c).length)) = true ↔
      ifc.OnNetwork a b c := by
  rw [List.any_eq_true]
  apply exists_congr
  intro ip
  apply and_congr_right
  intro hmem
  exact comparesEqual_networkText_iff (hprints ip hmem)

section

variable (host : BBEndianness) {interfaces : List NetworkInterface} (a b c d : UInt8)
  (port : UInt16) (ipv4 : UInt32) (ipv6 : Bytes)

/-- The search fails when no interface is on the sender's network, and finds the
address that answers for it otherwise. -/
theorem remoteToLocalIP_cases
    (hprints : ∀ ifc ∈ interfaces, ∀ ip ∈ ifc.addressList, ip.PrintsAsKnown) :
    (remoteToLocalIP host interfaces (.ipv4 a b c d port) ipv4 ipv6 = none ∧
      ∀ ifc ∈ interfaces, ¬ ifc.OnNetwork a b c) ∨
    ∃ x y z w, AnswersFor interfaces a b c x y z w ∧
      remoteToLocalIP host interfaces (.ipv4 a b c d port) ipv4 ipv6 =
        some (printedToUint host x y z w, ipv6) := by
  induction interfaces with
  | nil => exact .inl ⟨rfl, List.forall_mem_nil _⟩
  | cons ifc rest ih =>
      obtain ⟨hifc, hrest⟩ := List.forall_mem_cons.mp hprints
      have hmatch := any_comparesEqual_iff hifc a b c
      rw [remoteToLocalIP, lanBase_ipv4]
      by_cases hnetwork : ifc.OnNetwork a b c
      · obtain ⟨ip, hmem, hip⟩ := hnetwork
        obtain ⟨x, y, z, w, hfirst, hfound⟩ := exists_firstIPv4 host hmem hip
        refine .inr ⟨x, y, z, w, ⟨[], ifc, rest, rfl, List.forall_mem_nil _, ⟨ip, hmem, hip⟩,
          hfirst⟩, ?_⟩
        rw [if_pos (hmatch.mpr ⟨ip, hmem, hip⟩), hfound]
        rfl
      · rw [if_neg (mt hmatch.mp hnetwork)]
        rcases ih hrest with ⟨hnone, hothers⟩ | ⟨x, y, z, w, hanswers, hfound⟩
        · exact .inl ⟨hnone, List.forall_mem_cons.mpr ⟨hnetwork, hothers⟩⟩
        · obtain ⟨before, found, after, rfl, hbefore, hanswer⟩ := hanswers
          refine .inr ⟨x, y, z, w, ⟨ifc :: before, found, after, rfl, ?_, hanswer⟩, hfound⟩
          exact List.forall_mem_cons.mpr ⟨hnetwork, hbefore⟩

/-- For an IPv4 sender the search succeeds exactly when some interface has an address on
the sender's network, and returns the first IPv4 address of the first such interface. -/
theorem remoteToLocalIP_network
    (hprints : ∀ ifc ∈ interfaces, ∀ ip ∈ ifc.addressList, ip.PrintsAsKnown) :
    ((remoteToLocalIP host interfaces (.ipv4 a b c d port) ipv4 ipv6).isSome ↔
      ∃ ifc ∈ interfaces, ifc.OnNetwork a b c) ∧
    ∀ foundIPv4 foundIPv6, remoteToLocalIP host interfaces (.ipv4 a b c d port) ipv4 ipv6 =
        some (foundIPv4, foundIPv6) →
      ∃ x y z w, AnswersFor interfaces a b c x y z w ∧
        ipv4UintToString host foundIPv4 = dottedQuad x y z w := by
  rcases remoteToLocalIP_cases host a b c d port ipv4 ipv6 hprints with
    ⟨hnone, hothers⟩ | ⟨x, y, z, w, hanswers, hfound⟩
  · rw [hnone]
    refine ⟨iff_of_false Bool.false_ne_true ?_, ?_⟩
    · rintro ⟨ifc, hmem, hnetwork⟩
      exact hothers ifc hmem hnetwork
    · intro foundIPv4 foundIPv6 hsome
      cases hsome
  · rw [hfound]
    refine ⟨iff_of_true rfl ?_, ?_⟩
    · obtain ⟨before, ifc, after, rfl, -, hnetwork, -⟩ := hanswers
      exact ⟨ifc, List.mem_append_right before List.mem_cons_self, hnetwork⟩
    · intro foundIPv4 foundIPv6 hsome
      obtain ⟨rfl, rfl⟩ := Prod.mk.inj (Option.some.inj hsome)
      exact ⟨x, y, z, w, hanswers, ipv4UintToString_printedToUint host x y z w⟩

end

/-- An interface with two networks. -/
def twoNetworks : NetworkInterface := ⟨[.ipv4 10 0 0 1, .ipv4 192 168 1 5]⟩

/-- An interface with an IPv6 address alone, one that ends in an IPv4 address. -/
def tunnel : NetworkInterface :=
  ⟨[.ipv6 (ascii [':', ':', '1', '9', '2', '.', '1', '6', '8', '.', '1', '.', '5'])]⟩

theorem remoteToLocalIP_network_laptop :
    ∃ foundIPv4 foundIPv6, remoteToLocalIP .le [tunnel, twoNetworks] laptop 0 [] =
        some (foundIPv4, foundIPv6) ∧
      ∃ x y z w, AnswersFor [tunnel, twoNetworks] 192 168 1 x y z w ∧
        ipv4UintToString .le foundIPv4 = dottedQuad x y z w := by
  have hprints : ∀ ifc ∈ [tunnel, twoNetworks], ∀ ip ∈ ifc.addressList, ip.PrintsAsKnown := by
    intro ifc hifc ip hip
    rcases List.mem_pair.mp hifc with rfl | rfl
    · obtain rfl := List.mem_singleton.mp hip
      exact ⟨[], _, rfl, List.not_mem_nil⟩
    · rcases List.mem_pair.mp hip with rfl | rfl
      · trivial
      · trivial
  have hnetwork : twoNetworks.OnNetwork 192 168 1 :=
    ⟨.ipv4 192 168 1 5, List.mem_cons_of_mem _ List.mem_cons_self, 5, rfl⟩
  obtain ⟨hsome, hfirst⟩ := remoteToLocalIP_network .le 192 168 1 9 4004 0 [] hprints
  obtain ⟨⟨foundIPv4, foundIPv6⟩, hfound⟩ := Option.isSome_iff_exists.mp
    (hsome.mpr ⟨twoNetworks, List.mem_cons_of_mem _ List.mem_cons_self, hnetwork⟩)
  exact ⟨foundIPv4, foundIPv6, hfound, hfirst foundIPv4 foundIPv6 hfound⟩

/-- A sender on the second network of an interface is given the address on the first. -/
theorem address_of_other_network :
    laptop = .ipv4 192 168 1 9 4004 ∧ twoNetworks.OnNetwork 192 168 1 ∧
    ∃ found, remoteToLocalIP .le [twoNetworks] laptop 0 [] = some (found, []) ∧
      ipv4UintToString .le found = dottedQuad 10 0 0 1 ∧
      ¬ networkText 192 168 1 <+: ipv4UintToString .le found := by
  refine ⟨rfl, ⟨_, List.mem_cons_of_mem _ List.mem_cons_self, 5, rfl⟩, 0x0100000A, by decide,
    by decide, by decide⟩

end NyanSD
