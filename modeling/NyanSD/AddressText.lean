import NyanSD.Daemon

/-!
# Which texts the IPv4 parser takes for addresses

Every canonical address is parsed and printed back. Beyond these the parser reads
four parts in any case: it never looks at what follows the fourth one, it starts
over at the first one when there are fewer, and it keeps eight bits of each value.
-/

namespace NyanSD

open StdString ByteBauble

/-- The pieces between the dots. -/
def parts (text : Bytes) : List Bytes := text.splitOn dot

def IsNumber (part : Bytes) : Prop := part ≠ [] ∧ ∀ c ∈ part, isDigit c = true

/-- Four decimal numbers from 0 to 255, separated by single dots. -/
def IsAddress (text : Bytes) : Prop :=
  (parts text).length = 4 ∧ ∀ part ∈ parts text, IsNumber part ∧ digitsValue part ≤ 255

/-- An address without leading zeros. -/
def CanonicalAddress (text : Bytes) : Prop :=
  (parts text).length = 4 ∧ ∀ part ∈ parts text, Canonical part ∧ digitsValue part ≤ 255

instance (part : Bytes) : Decidable (IsNumber part) :=
  decidable_of_iff (part ≠ [] ∧ part.all isDigit = true) (and_congr_right' List.all_eq_true)

instance (text : Bytes) : Decidable (IsAddress text) := inferInstanceAs (Decidable (_ ∧ _))

instance (text : Bytes) : Decidable (CanonicalAddress text) :=
  inferInstanceAs (Decidable (_ ∧ _))

/-! ## Canonical addresses -/

/-- A canonical number up to 255 is an octet as it is printed. -/
theorem exists_decimal_octet {part : Bytes} (hcanonical : Canonical part)
    (hoctet : digitsValue part ≤ 255) : ∃ octet : UInt8, decimal octet.toNat = part := by
  refine ⟨UInt8.ofNat (digitsValue part), ?_⟩
  rw [UInt8.toNat_ofNat_of_lt' (Nat.lt_succ_of_le hoctet), hcanonical.decimal_digitsValue]

theorem CanonicalAddress.exists_dottedQuad {text : Bytes} (haddress : CanonicalAddress text) :
    ∃ a b c d, text = dottedQuad a b c d := by
  obtain ⟨hlength, hparts⟩ := haddress
  obtain ⟨first, second, third, fourth, hsplit⟩ := List.length_eq_four.mp hlength
  have hoctet : ∀ part ∈ [first, second, third, fourth], ∃ octet : UInt8,
      decimal octet.toNat = part := by
    intro part hmem
    obtain ⟨hcanonical, hvalue⟩ := hparts part (hsplit ▸ hmem)
    exact exists_decimal_octet hcanonical hvalue
  obtain ⟨a, rfl⟩ := hoctet first (by simp)
  obtain ⟨b, rfl⟩ := hoctet second (by simp)
  obtain ⟨c, rfl⟩ := hoctet third (by simp)
  obtain ⟨d, rfl⟩ := hoctet fourth (by simp)
  have hjoin : [dot].intercalate (parts text) = text := List.intercalate_splitOn dot
  refine ⟨a, b, c, d, ?_⟩
  rw [← hjoin, hsplit]
  simp [dottedQuad]

/-- The octets of an address are four. -/
theorem exists_octets (host : BBEndianness) (ipv4 : UInt32) :
    ∃ a b c d, objectBytes host ipv4 = [a, b, c, d] :=
  List.length_eq_four.mp (length_objectBytes host ipv4)

/-- Every integer is printed and parsed back, and every canonical address is parsed and
printed back. -/
theorem ipv4_text_round_trip (host : BBEndianness) :
    (∀ ipv4 : UInt32, ipv4StringToUint host (ipv4UintToString host ipv4) = .ok ipv4) ∧
    (∀ text : Bytes, CanonicalAddress text →
      ∃ ipv4, ipv4StringToUint host text = .ok ipv4 ∧ ipv4UintToString host ipv4 = text) := by
  constructor
  · intro ipv4
    obtain ⟨a, b, c, d, hoctets⟩ := exists_octets host ipv4
    rw [ipv4UintToString_of_octets hoctets, ipv4StringToUint_dottedQuad, ← hoctets,
      ofObjectBytes_objectBytes]
  · intro text haddress
    obtain ⟨a, b, c, d, rfl⟩ := haddress.exists_dottedQuad
    have hoctets : objectBytes host (ofObjectBytes host [a, b, c, d] : UInt32) = [a, b, c, d] := by
      rw [objectBytes_ofObjectBytes host host rfl, if_pos rfl]
    exact ⟨_, ipv4StringToUint_dottedQuad host a b c d, ipv4UintToString_of_octets hoctets⟩

theorem ipv4_text_round_trip_local :
    ipv4StringToUint .be (ipv4UintToString .be 0xC0A80105) = .ok 0xC0A80105 ∧
    CanonicalAddress (ascii ['1', '0', '.', '0', '.', '2', '5', '5', '.', '9']) ∧
    ∃ ipv4,
      ipv4StringToUint .be (ascii ['1', '0', '.', '0', '.', '2', '5', '5', '.', '9']) = .ok ipv4 ∧
      ipv4UintToString .be ipv4 = ascii ['1', '0', '.', '0', '.', '2', '5', '5', '.', '9'] := by
  have haddress : CanonicalAddress (ascii ['1', '0', '.', '0', '.', '2', '5', '5', '.', '9']) := by
    decide
  obtain ⟨hinteger, htext⟩ := ipv4_text_round_trip .be
  exact ⟨hinteger _, haddress, htext _ haddress⟩

/-! ## The parts that are read -/

/-- A part that `stoul` takes: there is a digit, and the value fits in an `unsigned long`. -/
def Readable (part : Bytes) : Prop := part ≠ [] ∧ digitsValue part < 2 ^ 64

instance (part : Bytes) : Decidable (Readable part) := inferInstanceAs (Decidable (_ ∧ _))

/-- What is stored of a part. -/
def partOctet (part : Bytes) : UInt8 := UInt8.ofNat (digitsValue part)

/-- The parts that the next passes read, the last one being followed by the first. -/
def upcoming (all : List Bytes) : Nat → List Bytes → List Bytes
  | 0, _ => []
  | _ + 1, [] => []
  | count + 1, [part] => part :: upcoming all count all
  | count + 1, part :: next :: rest => part :: upcoming all count (next :: rest)

theorem parts_cases (text : Bytes) :
    dot ∉ text ∧ parts text = [text] ∨
      ∃ word rest, text = word ++ dot :: rest ∧ dot ∉ word ∧ parts text = word :: parts rest :=
  splitOn_cases dot text

theorem parts_ne_nil (text : Bytes) : parts text ≠ [] := List.splitOn_ne_nil dot text

theorem storeOctet_ok_iff {word : Bytes} (hdigits : ∀ c ∈ word, isDigit c = true)
    {ipv4 octets out : Bytes} {count pos : Nat} :
    storeOctet ipv4 count pos octets word = .ok out ↔
      Readable word ∧ parseOctets ipv4 count pos (octets ++ [partOctet word]) = .ok out := by
  unfold storeOctet Readable partOctet
  by_cases hne : word = []
  · subst hne
    have hempty : stoul [] = .error .invalidArgument := by decide
    simp [hempty, bind, Except.bind]
  by_cases hfits : digitsValue word < 2 ^ 64
  · simp only [stoul_of_digits hne hdigits hfits, bind, Except.bind, ne_eq, hne, hfits,
      not_false_eq_true, and_self, true_and]
  · simp only [stoul_of_large hdigits (Nat.not_lt.mp hfits), bind, Except.bind, hfits, and_false,
      false_and, reduceCtorEq]

/-- Where a part is empty, the text that is cut out starts with the dot behind it. -/
theorem parseOctets_empty_part {ipv4 : Bytes} (before rest : Bytes) (count : Nat) (octets : Bytes)
    (hsplit : ipv4 = before ++ dot :: rest) (hshort : ipv4.length < npos) :
    parseOctets ipv4 (count + 1) before.length octets = .error .invalidArgument := by
  have hstart : before.length + 1 ≤ npos := by
    rw [hsplit, List.length_append, List.length_cons] at hshort
    omega
  obtain ⟨width, hwidth⟩ := Nat.exists_eq_add_of_le (le_find ipv4 dot hstart)
  have hcount : before.length + 1 + width - before.length = width + 1 := by omega
  have hcut : substr ipv4 before.length (width + 1) = .ok (dot :: rest.take width) := by
    simp [hsplit, substr]
  have hthrow := stoul_of_not_isDigit (c := dot) (rest.take width) (by decide) (by decide)
    (by decide) (by decide)
  rw [parseOctets, hwidth, hcount, hcut]
  simp only [bind, Except.bind, hthrow]

/-- The passes that are left succeed exactly when every part they come to can be read, and
store one octet for each. -/
theorem parseOctets_ok_iff {text out : Bytes} (hchars : ∀ c ∈ text, isDigit c = true ∨ c = dot)
    (hshort : text.length < npos) (count : Nat) (before rest octets : Bytes)
    (hsplit : text = before ++ rest) :
    parseOctets text count before.length octets = .ok out ↔
      (∀ part ∈ upcoming (parts text) count (parts rest), Readable part) ∧
        octets ++ (upcoming (parts text) count (parts rest)).map partOctet = out := by
  have hdigits : ∀ {word : Bytes}, dot ∉ word → (∀ c ∈ word, c ∈ text) →
      ∀ c ∈ word, isDigit c = true := by
    intro word hfree hword c hmem
    exact (hchars c (hword c hmem)).resolve_right fun heq => hfree (heq ▸ hmem)
  induction count generalizing before rest octets with
  | zero => simp [parseOctets, upcoming]
  | succ count ih =>
      rcases parts_cases rest with ⟨hfree, hparts⟩ | ⟨word, more, rfl, hfree, hparts⟩
      · -- behind the last part the next pass starts over
        have hword := hdigits hfree fun c hmem => hsplit ▸ List.mem_append_right before hmem
        have hnext := ih [] text (octets ++ [partOctet rest]) rfl
        rw [List.length_nil, List.append_assoc] at hnext
        rw [parseOctets_last_word before count octets hsplit hfree hshort,
          storeOctet_ok_iff hword, hparts, upcoming, List.forall_mem_cons, and_assoc]
        exact and_congr_right fun _ => hnext
      · obtain ⟨next, tail, hmore⟩ := List.exists_cons_of_ne_nil (parts_ne_nil more)
        rw [hparts, hmore, upcoming, List.forall_mem_cons, and_assoc, ← hmore]
        by_cases hne : word = []
        · subst hne
          rw [parseOctets_empty_part before more count octets hsplit hshort]
          simp [Readable]
        · have hword := hdigits hfree fun c hmem =>
            hsplit ▸ List.mem_append_right before (List.mem_append_left _ hmem)
          have hbehind : text = before ++ word ++ [dot] ++ more := by simp [hsplit]
          have hnext := ih (before ++ word ++ [dot]) more (octets ++ [partOctet word]) hbehind
          rw [List.append_assoc octets] at hnext
          rw [parseOctets_word before more count octets hsplit hne hfree hshort,
            storeOctet_ok_iff hword]
          exact and_congr_right fun _ => hnext

/-- Four passes come to the first four parts, or to all of them. -/
theorem mem_upcoming_four (all : List Bytes) (part : Bytes) :
    part ∈ upcoming all 4 all ↔ part ∈ all.take 4 := by
  match all with
  | [] => rfl
  | [first] => simp [upcoming]
  | [first, second] => simp [upcoming]; tauto
  | [first, second, third] => simp [upcoming]; tauto
  | first :: second :: third :: fourth :: rest =>
      cases rest with
      | nil => simp [upcoming]
      | cons fifth rest => simp [upcoming]

/-- Which texts of digits and dots are parsed, and what they are taken for. -/
theorem ipv4StringToUint_ok_iff {host : BBEndianness} {text : Bytes} {ipv4 : UInt32}
    (hchars : ∀ c ∈ text, isDigit c = true ∨ c = dot) (hshort : text.length < npos) :
    ipv4StringToUint host text = .ok ipv4 ↔
      (∀ part ∈ (parts text).take 4, Readable part) ∧
        ofObjectBytes host ((upcoming (parts text) 4 (parts text)).map partOctet) = ipv4 := by
  have hpasses : ∀ out, parseOctets text 4 0 [] = .ok out ↔
      (∀ part ∈ upcoming (parts text) 4 (parts text), Readable part) ∧
        (upcoming (parts text) 4 (parts text)).map partOctet = out := fun out =>
    parseOctets_ok_iff hchars hshort 4 [] text [] rfl
  simp only [← mem_upcoming_four]
  constructor
  · intro hparsed
    rw [ipv4StringToUint] at hparsed
    cases hpass : parseOctets text 4 0 [] with
    | error e =>
        rw [hpass] at hparsed
        cases hparsed
    | ok out =>
        rw [hpass] at hparsed
        cases hparsed
        obtain ⟨hreadable, rfl⟩ := (hpasses out).mp hpass
        exact ⟨hreadable, rfl⟩
  · rintro ⟨hreadable, rfl⟩
    rw [ipv4StringToUint, (hpasses _).mpr ⟨hreadable, rfl⟩]
    rfl

/-- An address, leading zeros or not, is stored as its own octets. -/
theorem IsAddress.parsed {text : Bytes} (haddress : IsAddress text)
    (hchars : ∀ c ∈ text, isDigit c = true ∨ c = dot) (hshort : text.length < npos)
    (host : BBEndianness) :
    ∃ ipv4, ipv4StringToUint host text = .ok ipv4 ∧
      (objectBytes host ipv4).map UInt8.toNat = (parts text).map digitsValue := by
  obtain ⟨hlength, hparts⟩ := haddress
  have hpasses : upcoming (parts text) 4 (parts text) = parts text := by
    obtain ⟨first, second, third, fourth, hsplit⟩ := List.length_eq_four.mp hlength
    rw [hsplit]
    rfl
  have hreadable : ∀ part ∈ (parts text).take 4, Readable part := by
    intro part hmem
    obtain ⟨hnumber, hvalue⟩ := hparts part (List.mem_of_mem_take hmem)
    exact ⟨hnumber.1, Nat.lt_of_le_of_lt hvalue (by decide)⟩
  refine ⟨_, (ipv4StringToUint_ok_iff hchars hshort).mpr ⟨hreadable, rfl⟩, ?_⟩
  have hsize : ((parts text).map partOctet).length = MachineInt.size UInt32 := by
    rw [List.length_map, hlength]
    rfl
  rw [hpasses, objectBytes_ofObjectBytes host host hsize, if_pos rfl, List.map_map]
  apply List.map_congr_left
  intro part hmem
  exact UInt8.toNat_ofNat_of_lt' (Nat.lt_succ_of_le (hparts part hmem).2)

/-! ## Texts that are no addresses -/

/-- The parser returns for an address only, and the daemon registers nothing else as one. -/
def AcceptsOnlyAddress (text : Bytes) : Prop :=
  (∀ host ipv4, ipv4StringToUint host text = .ok ipv4 → IsAddress text) ∧
  ∀ (host : BBEndianness) (hostName : Bytes) (serviceFiles : List Daemon.INIReader)
    (entry : Daemon.Entry) (sv : NYSDService),
    (entry, sv) ∈ (Daemon.addServices host hostName serviceFiles).registered.zip
      (Daemon.addServices host hostName serviceFiles).services →
    entry.serviceFile.ipv4 entry.title = text → text ≠ [] → IsAddress text

/-- What is no address is refused exactly when the parser meets a part that is empty or too
large for `stoul` among the first four. -/
theorem acceptsOnlyAddress_iff {text : Bytes} (hchars : ∀ c ∈ text, isDigit c = true ∨ c = dot)
    (hshort : text.length < npos) :
    AcceptsOnlyAddress text ↔
      IsAddress text ∨ ∃ part ∈ (parts text).take 4, ¬ Readable part := by
  constructor
  · rintro ⟨hparser, -⟩
    by_cases hreadable : ∀ part ∈ (parts text).take 4, Readable part
    · exact .inl (hparser .le _ ((ipv4StringToUint_ok_iff hchars hshort).mpr ⟨hreadable, rfl⟩))
    · push Not at hreadable
      exact .inr hreadable
  · intro hcondition
    have hparser : ∀ host ipv4, ipv4StringToUint host text = .ok ipv4 → IsAddress text := by
      intro host ipv4 hparsed
      rcases hcondition with haddress | ⟨part, hmem, hunreadable⟩
      · exact haddress
      · obtain ⟨hreadable, -⟩ := (ipv4StringToUint_ok_iff hchars hshort).mp hparsed
        exact absurd (hreadable part hmem) hunreadable
    refine ⟨hparser, ?_⟩
    intro host hostName serviceFiles entry sv hregistered htext hne
    have hread := (Daemon.registers_of_mem hregistered).ipv4_eq
    rw [htext, Daemon.readIpv4, if_neg hne] at hread
    exact hparser host sv.ipv4 hread

theorem acceptsOnlyAddress_empty_part :
    AcceptsOnlyAddress (ascii ['1', '.', '.', '2', '.', '3']) := by
  have hall : (ascii ['1', '.', '.', '2', '.', '3']).all (fun c => isDigit c || c == dot) := by
    decide
  have hunreadable : ∃ part ∈ (parts (ascii ['1', '.', '.', '2', '.', '3'])).take 4,
      ¬ Readable part := by
    decide
  refine (acceptsOnlyAddress_iff ?_ ?_).mpr (.inr hunreadable)
  · intro c hmem
    simpa using List.all_eq_true.mp hall c hmem
  · decide

/-- 1.2 is parsed as 1.2.1.2, 300.1.1.1 as 44.1.1.1 and 1.2.3.4.5 as 1.2.3.4, and the daemon
registers the first of these. -/
theorem malformed_accepted :
    ipv4StringToUint .le (ascii ['1', '.', '2']) = .ok 0x02010201 ∧
    ipv4UintToString .le 0x02010201 = dottedQuad 1 2 1 2 ∧
    ipv4StringToUint .le (ascii ['3', '0', '0', '.', '1', '.', '1', '.', '1']) =
      ipv4StringToUint .le (dottedQuad 44 1 1 1) ∧
    ipv4StringToUint .le (ascii ['1', '.', '2', '.', '3', '.', '4', '.', '5']) =
      ipv4StringToUint .le (dottedQuad 1 2 3 4) ∧
    ((Daemon.addServices .le (ascii ['p', 'c'])
        [Daemon.webFile [(ascii ['p', 'o', 'r', 't'], ascii ['8', '0']),
          (ascii ['i', 'p', 'v', '4'], ascii ['1', '.', '2'])]]).services.map
        fun sv => (sv.ipv4, sv.port)) = [(0x02010201, 80)] ∧
    ¬ AcceptsOnlyAddress (ascii ['1', '.', '2']) := by
  have hparsed : ipv4StringToUint .le (ascii ['1', '.', '2']) = .ok 0x02010201 := by decide
  refine ⟨hparsed, by decide, by decide, by decide, by decide, ?_⟩
  rintro ⟨hparser, -⟩
  exact absurd (hparser .le _ hparsed) (by decide)

end NyanSD
