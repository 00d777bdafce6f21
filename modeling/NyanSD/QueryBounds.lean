import NyanSD.Layout
import NyanSD.QueryRoundTrip

/-!
# What the query parser reads

The header checks compare the length field with what was received, but the count
byte and the filter lengths behind it are taken as they come. The section loop
stays inside the datagram exactly when the bytes behind the count are sections that
lie in it as a whole, up to the count or up to a byte that starts no section.
-/

namespace NyanSD

open Access ByteBauble

variable (server : Server) (sender : SocketAddress)

/-! ## The section loop -/

/-- What was answered before does not change what is read. -/
theorem reads_querySections (memory : Nat → UInt8) (count index : Nat)
    (answers others : List Answer) :
    (querySections server sender count index answers).reads memory =
      (querySections server sender count index others).reads memory := by
  induction count generalizing index answers others with
  | zero => rfl
  | succ count ih =>
      rw [querySections, querySections, reads_bind, reads_bind, reads_ite, reads_ite]
      split
      · rw [ih index answers others]
      · simp only [reads_bind]
        rw [ih _ (answers ++ _) others, ih _ (others ++ _) others]

theorem within_querySections_succ (memory : Nat → UInt8) (bound count index : Nat)
    (answers : List Answer) :
    Within memory bound (querySections server sender (count + 1) index answers) ↔
      index < bound ∧
        if memory index ≠ Wire.querySignature then
          Within memory bound (querySections server sender count index answers)
        else
          index + 2 < bound ∧
            ((memory (index + 2)).toNat = 0 ∨ index + 3 + (memory (index + 2)).toNat ≤ bound) ∧
            Within memory bound (querySections server sender count
              (index + 3 + (memory (index + 2)).toNat) answers) := by
  rw [querySections, within_bind, within_cell, within_ite, run_cell]
  refine and_congr_right fun _ => ?_
  split
  · rfl
  · simp only [within_bind, within_cell, within_span, run_cell]
    rw [Within, reads_querySections server sender memory _ _ _ answers, ← Within]
    constructor
    · rintro ⟨-, hrest⟩
      exact hrest
    · intro hrest
      exact ⟨by omega, hrest⟩

/-- At a byte that starts no section the index does not move, so every pass that is left
reads this byte again. -/
theorem within_querySections_of_ne {memory : Nat → UInt8} {bound index : Nat}
    (count : Nat) (answers : List Answer) (hinside : index < bound)
    (hother : memory index ≠ Wire.querySignature) :
    Within memory bound (querySections server sender count index answers) := by
  induction count with
  | zero => exact within_pure _
  | succ count ih =>
      rw [within_querySections_succ, if_pos hother]
      exact ⟨hinside, ih⟩

/-- A section is read inside the bytes that are left exactly when they start with it. -/
theorem within_querySections_mark {memory : Nat → UInt8} {bound index : Nat} {tail : Bytes}
    (count : Nat) (answers : List Answer)
    (hbound : index + (Wire.querySignature :: tail).length = bound)
    (hholds : Holds memory index (Wire.querySignature :: tail)) :
    Within memory bound (querySections server sender (count + 1) index answers) ↔
      ∃ (s : Wire.QuerySection) (more : Bytes),
        Wire.querySignature :: tail = s.bytes ++ more ∧
        Within memory bound (querySections server sender count (index + s.bytes.length)
          answers) := by
  obtain ⟨hmark, htail⟩ := hholds
  rw [List.length_cons] at hbound
  rw [within_querySections_succ, hmark, if_neg (not_not.mpr rfl)]
  constructor
  · rintro ⟨-, hlong, hfilter, hloop⟩
    obtain ⟨prot, length, more, rfl⟩ : ∃ prot length more, tail = prot :: length :: more := by
      rcases tail with _ | ⟨prot, _ | ⟨length, more⟩⟩
      · rw [List.length_nil] at hbound
        omega
      · rw [List.length_singleton] at hbound
        omega
      · exact ⟨prot, length, more, rfl⟩
    rw [htail.2.1] at hfilter hloop
    rw [List.length_cons, List.length_cons] at hbound
    have hexact : length.toNat = (more.take length.toNat).length := by
      rw [List.length_take]
      omega
    refine ⟨⟨⟨prot, length, more.take length.toNat⟩, hexact⟩, more.drop length.toNat, ?_, ?_⟩
    · simp [Wire.QueryFields.bytes]
    · rw [Wire.QueryFields.length_bytes, ← hexact, ← Nat.add_assoc]
      exact hloop
  · rintro ⟨s, more, hsplit, hloop⟩
    obtain rfl : tail = s.prot :: s.length :: (s.filter ++ more) := (List.cons.inj hsplit).2
    rw [Wire.QueryFields.length_bytes, ← Nat.add_assoc] at hloop
    simp only [List.length_cons, List.length_append] at hbound
    rw [htail.2.1, s.exact]
    exact ⟨by omega, by omega, .inr (by omega), hloop⟩

/-- The loop stays inside the bytes that are left exactly when these are sections it
can walk over. -/
theorem within_querySections_iff {memory : Nat → UInt8} {index : Nat} {rest : Bytes}
    (count : Nat) (answers : List Answer) (hholds : Holds memory index rest) :
    Within memory (index + rest.length) (querySections server sender count index answers) ↔
      Wire.Sectioned (fun s : Wire.QuerySection => s.bytes) Wire.querySignature count rest := by
  generalize hbound : index + rest.length = bound
  apply Wire.sectioned_of_passes (f := fun _ answers => answers)
    (P := fun count index answers =>
      Within memory bound (querySections server sender count index answers))
  · exact fun _ => rfl
  · exact fun _ _ => within_pure _
  · intro count answers hwithin
    exact absurd ((within_querySections_succ ..).mp hwithin).1 (Nat.lt_irrefl bound)
  · exact fun count _ answers => within_querySections_of_ne server sender count answers
  · exact fun count _ answers _ => within_querySections_mark server sender count answers
  · exact hbound
  · exact hholds

/-! ## The whole handler -/

/-- Once the checks have passed, only the section loop can leave the datagram. -/
theorem within_handle_iff {n index : Nat} {memory : Nat → UInt8} {answers : List Answer}
    (hhandled : (handle server sender n).run memory = .sections index answers) :
    Within memory n (handle server sender n) ↔
      Within memory n (querySections server sender (memory 9).toNat 10 []) := by
  obtain ⟨hchecks, -⟩ := passesChecks_of_sections server sender hhandled
  have hlong := hchecks.long
  have hlength := hchecks.length
  unfold lengthField at hlength
  rw [handle, within_guard, within_bind, within_guard, within_bind, within_guard, within_bind,
    within_cell, run_cell, within_guard, within_bind, within_cell, run_cell, within_guard,
    within_bind, within_span, within_load, MachineInt.size_uint16, and_iff_left (within_pure _)]
  simp only [ne_eq, not_not, hchecks.signature, hchecks.type, hchecks.count, not_false_eq_true,
    forall_const]
  rw [forall_prop_of_true (Nat.not_lt.mpr hlong), forall_prop_of_true hlength,
    and_iff_right (by omega), and_iff_right (by omega), and_iff_right (by omega),
    and_iff_right (by omega)]

/-! ## Datagrams -/

/-- What a query parser that stays inside its datagram reads and does: every byte it
looks at was received, and the answers are the same whatever else the buffer holds. -/
structure StaysInside (datagram : Bytes) (buffer : Nat → UInt8) : Prop where
  reads : Within (receive datagram buffer).data datagram.length
    (handle server sender datagram.length)
  sent : ∀ other : Nat → UInt8, (clientHandler server sender datagram other).sent =
    (clientHandler server sender datagram buffer).sent

variable {server sender}

/-- The handler stays inside a datagram that passes its checks exactly when the bytes
behind the count are whole query sections, as many as it says or up to a byte that
starts no section. -/
theorem staysInside_iff {datagram : Bytes} {buffer : Nat → UInt8} {index : Nat}
    {answers : List Answer} (hsize : datagram.length ≤ receiveSize)
    (hhandled : clientHandler server sender datagram buffer = .sections index answers) :
    StaysInside server sender datagram buffer ↔
      Wire.Sectioned (fun s : Wire.QuerySection => s.bytes) Wire.querySignature
        (datagram[9]?.getD 0).toNat (datagram.drop 10) := by
  have hlength : (receive datagram buffer).length = datagram.length := by
    rw [length_receive, Nat.min_eq_right hsize]
  rw [clientHandler, hlength] at hhandled
  have hlong : 10 ≤ datagram.length := by
    by_contra hshort
    rw [run_handle, if_pos (Nat.not_le.mp hshort)] at hhandled
    cases hhandled
  have hholds := holds_receive datagram buffer
  rw [List.take_of_length_le hsize] at hholds
  have hcount : (receive datagram buffer).data 9 = datagram[9]?.getD 0 := by
    rw [holds_iff_getElem] at hholds
    rw [List.getElem?_eq_getElem (by omega), ← hholds 9 (by omega)]
    rfl
  have hloop := within_querySections_iff server sender (datagram[9]?.getD 0).toNat []
    (hholds.drop 10)
  rw [Nat.zero_add, List.length_drop, Nat.add_sub_cancel' hlong, ← hcount,
    ← within_handle_iff server sender hhandled] at hloop
  rw [← hcount, ← hloop]
  refine ⟨StaysInside.reads, ?_⟩
  intro hwithin
  refine ⟨hwithin, ?_⟩
  intro other
  have hsame := (hwithin.congr (receive_data_congr buffer other hsize)).1
  rw [clientHandler, clientHandler, length_receive, length_receive, Nat.min_eq_right hsize, hsame]

theorem staysInside_printer :
    StaysInside (serverOf .le [printer]) laptop
      (Wire.broadcast [⟨.all, []⟩, ⟨.tcp, printer.service⟩]) fun _ => 0 := by
  have hhandled : clientHandler (serverOf .le [printer]) laptop
      (Wire.broadcast [⟨.all, []⟩, ⟨.tcp, printer.service⟩]) (fun _ => 0) = .sections 19
        [⟨NYSDProtocol.all.toByte, [], respond (serverOf .le [printer]) laptop []⟩,
          ⟨NYSDProtocol.tcp.toByte, printer.service,
            respond (serverOf .le [printer]) laptop printer.service⟩] := by
    decide
  apply (staysInside_iff (by decide) hhandled).mpr
  exact ⟨[⟨⟨0, 0, []⟩, rfl⟩, ⟨⟨1, 3, printer.service⟩, rfl⟩], [], rfl, .inl rfl⟩

/-- A broadcast that ends behind its count byte. -/
def sectionless : Bytes :=
  Wire.message .broadcast [1]

/-- The section loop reads one byte past the datagram, and a section signature left
there by an earlier one is answered. -/
theorem sectionless_read_beyond :
    clientHandler (serverOf .le [printer]) laptop sectionless (fun _ => 0) = .sections 10 [] ∧
    ¬ Within (receive sectionless fun _ => 0).data sectionless.length
      (handle (serverOf .le [printer]) laptop sectionless.length) ∧
    (clientHandler (serverOf .le [printer]) laptop sectionless fun _ => 0).sent = [] ∧
    (clientHandler (serverOf .le [printer]) laptop sectionless
      fun _ => Wire.querySignature).sent = [Wire.response []] ∧
    ¬ StaysInside (serverOf .le [printer]) laptop sectionless fun _ => 0 := by
  have hsent : (clientHandler (serverOf .le [printer]) laptop sectionless
      fun _ => Wire.querySignature).sent = [Wire.response []] := by
    decide
  have hhandled : clientHandler (serverOf .le [printer]) laptop sectionless (fun _ => 0) =
      .sections 10 [] := by
    decide
  have hbeyond : 10 ∈ (handle (serverOf .le [printer]) laptop sectionless.length).reads
      (receive sectionless fun _ => 0).data := by
    decide
  refine ⟨hhandled, fun hwithin => absurd (hwithin 10 hbeyond) (by decide), ?_, hsent, ?_⟩
  · rw [hhandled]
    rfl
  · intro hinside
    exact absurd (hinside.reads 10 hbeyond) (by decide)

end NyanSD
