import NyanSD.Service

/-!
# IPv4 addresses as text

Both conversions go through a byte pointer, so the four octets are the bytes of
the integer in the memory of the host, and the integer itself depends on the
host's byte order. The parser cuts the string at dots; its position wraps to the
start once no further dot is found.
-/

namespace NyanSD

open StdString

/-- The character between two octets. -/
def dot : UInt8 := '.'.toUInt8

/-- Four decimal numbers separated by single dots. -/
def dottedQuad (a b c d : UInt8) : Bytes :=
  decimal a.toNat ++ dot :: (decimal b.toNat ++ dot :: (decimal c.toNat ++ dot ::
    decimal d.toNat))

/-- The loop of `ipv4_uintToString` over the bytes at and after position `i`. -/
def printOctets : Nat → Bytes → Bytes → Bytes
  | _, [], out => out
  | i, octet :: rest, out =>
      let out := out ++ decimal octet.toNat
      printOctets (i + 1) rest (if i < 3 then out ++ [dot] else out)

def ipv4UintToString (host : BBEndianness) (ipv4 : UInt32) : Bytes :=
  printOctets 0 (objectBytes host ipv4) []

/-- The loop of `ipv4_stringToUint`: `count` octets are still to be read, the
next one from `pos`. -/
def parseOctets (ipv4 : Bytes) : Nat → Nat → Bytes → Except StdException Bytes
  | 0, _, octets => .ok octets
  | count + 1, pos, octets => do
      let posEnd := find ipv4 dot (pos + 1)
      let octet ← stoul (← substr ipv4 pos (posEnd - pos))
      parseOctets ipv4 count (advance posEnd 1) (octets ++ [UInt8.ofNat octet])

def ipv4StringToUint (host : BBEndianness) (ipv4 : Bytes) : Except StdException UInt32 := do
  let octets ← parseOctets ipv4 4 0 []
  return ofObjectBytes host octets

/-! ## Canonical addresses -/

theorem dot_not_mem_decimal (n : Nat) : dot ∉ decimal n :=
  fun hmem => absurd (isDigit_of_mem_decimal hmem) (by decide)

/-- Every octet takes at most three characters. -/
theorem length_dottedQuad_le (a b c d : UInt8) : (dottedQuad a b c d).length ≤ 15 := by
  have hoctet : ∀ octet : UInt8, (decimal octet.toNat).length ≤ 3 := fun octet =>
    length_decimal_le (by decide) (Nat.lt_trans octet.toNat_lt (by decide))
  have ha := hoctet a
  have hb := hoctet b
  have hc := hoctet c
  have hd := hoctet d
  simp only [dottedQuad, List.length_append, List.length_cons]
  omega

/-- What a pass does with the word it has cut out. -/
def storeOctet (ipv4 : Bytes) (count pos : Nat) (octets word : Bytes) :
    Except StdException Bytes := do
  let octet ← stoul word
  parseOctets ipv4 count pos (octets ++ [UInt8.ofNat octet])

/-- One pass of the parser over a word that a dot follows. -/
theorem parseOctets_word {ipv4 word : Bytes} (before rest : Bytes) (count : Nat) (octets : Bytes)
    (hsplit : ipv4 = before ++ (word ++ dot :: rest)) (hne : word ≠ []) (hfree : dot ∉ word)
    (hshort : ipv4.length < npos) :
    parseOctets ipv4 (count + 1) before.length octets =
      storeOctet ipv4 count (before ++ word ++ [dot]).length octets word := by
  have hend := find_separator before rest hne hfree
  have hnext : advance (before.length + word.length) 1 = (before ++ word ++ [dot]).length := by
    rw [hsplit] at hshort
    simp only [npos, List.length_append, List.length_cons] at hshort
    simp only [advance, List.length_append, List.length_cons, List.length_nil]
    omega
  rw [hsplit, parseOctets, hend, Nat.add_sub_cancel_left, substr_word, hnext]
  rfl

/-- The pass over the last word runs to the end of the string, and the next one would start
at its beginning. -/
theorem parseOctets_last_word {ipv4 word : Bytes} (before : Bytes) (count : Nat) (octets : Bytes)
    (hsplit : ipv4 = before ++ word) (hfree : dot ∉ word) (hshort : ipv4.length < npos) :
    parseOctets ipv4 (count + 1) before.length octets = storeOctet ipv4 count 0 octets word := by
  have hend := find_last_word before hfree
  have hwrap : advance npos 1 = 0 := by decide
  have hrest : substr (before ++ word) before.length (npos - before.length) = .ok word := by
    rw [hsplit, List.length_append] at hshort
    simp only [substr, List.length_append, Nat.not_lt.mpr (Nat.le_add_right _ _), if_false,
      List.drop_left, Except.ok.injEq]
    exact List.take_of_length_le (by omega)
  rw [hsplit, parseOctets, hend, hrest, hwrap]
  rfl

theorem storeOctet_decimal (ipv4 : Bytes) (count pos : Nat) (octets : Bytes) (octet : UInt8) :
    storeOctet ipv4 count pos octets (decimal octet.toNat) =
      parseOctets ipv4 count pos (octets ++ [octet]) := by
  have hfits : octet.toNat < 2 ^ 64 := Nat.lt_trans octet.toNat_lt (by decide)
  simp only [storeOctet, bind, Except.bind, stoul_decimal hfits, UInt8.ofNat_toNat]

/-- One pass of the parser over an octet that a dot follows. -/
theorem parseOctets_dot {ipv4 : Bytes} (before rest : Bytes) (octet : UInt8) (count : Nat)
    (octets : Bytes) (hsplit : ipv4 = before ++ (decimal octet.toNat ++ dot :: rest))
    (hshort : ipv4.length < npos) :
    parseOctets ipv4 (count + 1) before.length octets =
      parseOctets ipv4 count (before ++ decimal octet.toNat ++ [dot]).length
        (octets ++ [octet]) := by
  rw [parseOctets_word before rest count octets hsplit (decimal_ne_nil _) (dot_not_mem_decimal _)
    hshort, storeOctet_decimal]

/-- The pass over the last octet. -/
theorem parseOctets_last {ipv4 : Bytes} (before : Bytes) (octet : UInt8) (octets : Bytes)
    (hsplit : ipv4 = before ++ decimal octet.toNat) (hshort : ipv4.length < npos) :
    parseOctets ipv4 1 before.length octets = .ok (octets ++ [octet]) := by
  rw [parseOctets_last_word before 0 octets hsplit (dot_not_mem_decimal _) hshort,
    storeOctet_decimal]
  rfl

theorem parseOctets_dottedQuad (a b c d : UInt8) :
    parseOctets (dottedQuad a b c d) 4 0 [] = .ok [a, b, c, d] := by
  have hshort : (dottedQuad a b c d).length < npos :=
    Nat.lt_of_le_of_lt (length_dottedQuad_le a b c d) (by decide)
  let second := decimal b.toNat ++ dot :: (decimal c.toNat ++ dot :: decimal d.toNat)
  let third := decimal c.toNat ++ dot :: decimal d.toNat
  have hfirst := parseOctets_dot [] second a 3 [] rfl hshort
  have hsecond := parseOctets_dot (decimal a.toNat ++ [dot]) third b 2 [a]
    (by simp [dottedQuad, third]) hshort
  have hthird := parseOctets_dot (decimal a.toNat ++ [dot] ++ decimal b.toNat ++ [dot])
    (decimal d.toNat) c 1 [a, b] (by simp [dottedQuad]) hshort
  have hlast := parseOctets_last
    (decimal a.toNat ++ [dot] ++ decimal b.toNat ++ [dot] ++ decimal c.toNat ++ [dot]) d
    [a, b, c] (by simp [dottedQuad]) hshort
  exact hfirst.trans (hsecond.trans (hthird.trans hlast))

/-- The parser never throws on a canonical address, and stores its octets in
memory order. -/
theorem ipv4StringToUint_dottedQuad (host : BBEndianness) (a b c d : UInt8) :
    ipv4StringToUint host (dottedQuad a b c d) = .ok (ofObjectBytes host [a, b, c, d]) := by
  rw [ipv4StringToUint, parseOctets_dottedQuad]
  rfl

theorem ipv4UintToString_of_octets {host : BBEndianness} {ipv4 : UInt32} {a b c d : UInt8}
    (hoctets : objectBytes host ipv4 = [a, b, c, d]) :
    ipv4UintToString host ipv4 = dottedQuad a b c d := by
  simp [ipv4UintToString, hoctets, printOctets, dottedQuad]

end NyanSD
