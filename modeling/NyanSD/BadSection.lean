import NyanSD.QueryBounds

/-!
# A section with a wrong signature

The section loop of the handler says it aborts at a byte that starts no section, but
goes on with its next pass. Nothing is answered in the passes that are left: each of them
meets the same byte.
-/

namespace NyanSD

open Access ByteBauble

variable (server : Server) (sender : SocketAddress)

/-- Behind the checks, the section loop decides what the handler does. -/
theorem run_handle_of_passesChecks {n : Nat} {memory : Nat → UInt8}
    (hchecks : PassesChecks server.host n memory) :
    (handle server sender n).run memory =
      .sections ((querySections server sender (memory 9).toNat 10 []).run memory).1
        ((querySections server sender (memory 9).toNat 10 []).run memory).2 := by
  rw [run_handle, if_neg (Nat.not_lt.mpr hchecks.long), if_neg (not_not.mpr hchecks.signature),
    if_neg (not_not.mpr hchecks.length), if_neg (not_not.mpr hchecks.type), if_neg hchecks.count]

/-- Sections in front of a byte that starts no section are read and answered in order, and
the loop stops at that byte. -/
theorem run_querySections_stopped {memory : Nat → UInt8} {index count : Nat} {other : UInt8}
    (sections : List Wire.QuerySection) (answers : List Answer)
    (hcount : sections.length ≤ count) (hother : other ≠ Wire.querySignature)
    (hholds : Holds memory index ((sections.flatMap fun s => s.bytes) ++ [other])) :
    (querySections server sender count index answers).run memory =
      (index + (sections.flatMap fun s => s.bytes).length,
        answers ++ sections.map (sectionAnswer server sender)) := by
  obtain ⟨hsections, hend, -⟩ := (holds_append _ _ _ _).mp hholds
  obtain ⟨remaining, rfl⟩ := Nat.exists_eq_add_of_le hcount
  rw [run_querySections_append server sender sections remaining answers hsections]
  apply run_querySections_of_ne
  rwa [hend]

/-- A datagram that passes the checks and has a byte that starts no section where its
section `k` should start is answered with exactly the responses to the sections in front of
it. -/
theorem clientHandler_stopped {datagram : Bytes} {buffer : Nat → UInt8} {count other : UInt8}
    {sections : List Wire.QuerySection} {rest : Bytes}
    (hchecks : PassesChecks server.host (receive datagram buffer).length
      (receive datagram buffer).data)
    (hcount : datagram[9]? = some count) (hfewer : sections.length < count.toNat)
    (hother : other ≠ Wire.querySignature)
    (hbehind : (datagram.take receiveSize).drop 10 =
      (sections.flatMap fun s => s.bytes) ++ other :: rest) :
    clientHandler server sender datagram buffer =
        .sections (10 + (sections.flatMap fun s => s.bytes).length)
          (sections.map fun s => ⟨s.prot, s.filter, respond server sender s.filter⟩) ∧
      (clientHandler server sender datagram buffer).sent =
        sections.map fun s => respond server sender s.filter := by
  have hholds := (holds_receive datagram buffer).drop 10
  rw [hbehind, List.append_cons] at hholds
  have hstart := ((holds_append _ _ _ _).mp hholds).1
  have hnumber : (receive datagram buffer).data 9 = count := by
    have hinside : (datagram.take receiveSize)[9]? = some count := by
      rwa [List.getElem?_take_of_lt (by decide)]
    simp only [receive, hinside, Option.getD_some]
  have hloop := run_querySections_stopped server sender sections [] hfewer.le hother hstart
  have hhandled : clientHandler server sender datagram buffer =
      .sections (10 + (sections.flatMap fun s => s.bytes).length)
        (sections.map (sectionAnswer server sender)) := by
    rw [clientHandler, run_handle_of_passesChecks server sender hchecks, hnumber, hloop]
    simp
  refine ⟨hhandled, ?_⟩
  rw [hhandled, Handled.sent, List.map_map]
  rfl

/-- A broadcast that counts three sections, the second of which has a wrong signature. -/
def interrupted : Bytes :=
  Wire.message .broadcast (3 :: (Wire.querySection ⟨.tcp, printer.service⟩ ++
    0 :: Wire.querySection ⟨.all, []⟩))

theorem clientHandler_stopped_interrupted :
    (clientHandler (serverOf .le [printer]) laptop interrupted fun _ => 0).sent =
      [respond (serverOf .le [printer]) laptop printer.service] := by
  have hchecks : PassesChecks .le (receive interrupted fun _ => 0).length
      (receive interrupted fun _ => 0).data :=
    ⟨by decide, by decide, by decide, by decide, by decide⟩
  let sections : List Wire.QuerySection := [⟨⟨1, 3, printer.service⟩, rfl⟩]
  have hbehind : (interrupted.take receiveSize).drop 10 =
      (sections.flatMap fun s => s.bytes) ++ 0 :: Wire.querySection ⟨.all, []⟩ := by
    decide
  have hfewer : sections.length < (3 : UInt8).toNat := by decide
  exact (clientHandler_stopped (serverOf .le [printer]) laptop hchecks rfl hfewer (by decide)
    hbehind).2

end NyanSD
