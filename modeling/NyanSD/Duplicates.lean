import NyanSD.Foundation.EraseDups
import NyanSD.Service

/-!
# The client program

A service answers on every interface that the query went out on, so the program filters
what it received before it shows it. The loop keeps first occurrences: it computes
`List.eraseDups` of the responses.
-/

namespace NyanSD

/-- The comparison of two records in the loop of `isDuplicate`. -/
def sameRecord (unique rm : NYSDService) : Bool :=
  unique.ipv4 == rm.ipv4 &&
  unique.ipv6 == rm.ipv6 &&
  unique.hostname == rm.hostname &&
  unique.port == rm.port &&
  unique.service == rm.service &&
  unique.protocol == rm.protocol

def isDuplicate : List NYSDService → NYSDService → Bool
  | [], _ => false
  | unique :: uniques, rm => if sameRecord unique rm then true else isDuplicate uniques rm

/-- One turn of the loop of the program. -/
def pushUnique (uniques : List NYSDService) (response : NYSDService) : List NYSDService :=
  if isDuplicate uniques response then uniques else uniques ++ [response]

/-- The list `uniques` when the loop has ended. -/
def filterDuplicates (responses : List NYSDService) : List NYSDService :=
  responses.foldl pushUnique []

/-- No field is left out of the comparison. -/
theorem sameRecord_iff (unique rm : NYSDService) : sameRecord unique rm = true ↔ unique = rm := by
  cases unique
  cases rm
  simp only [sameRecord, Bool.and_eq_true, beq_iff_eq, NYSDService.mk.injEq]
  constructor
  · rintro ⟨⟨⟨⟨⟨hipv4, hipv6⟩, hhostname⟩, hport⟩, hservice⟩, hprotocol⟩
    exact ⟨hipv4, hipv6, hport, hhostname, hservice, hprotocol⟩
  · rintro ⟨hipv4, hipv6, hport, hhostname, hservice, hprotocol⟩
    exact ⟨⟨⟨⟨⟨hipv4, hipv6⟩, hhostname⟩, hport⟩, hservice⟩, hprotocol⟩

theorem isDuplicate_iff (uniques : List NYSDService) (rm : NYSDService) :
    isDuplicate uniques rm = true ↔ rm ∈ uniques := by
  induction uniques with
  | nil => simp [isDuplicate]
  | cons unique uniques ih =>
      rw [isDuplicate, List.mem_cons, eq_comm (a := rm), ← sameRecord_iff]
      split
      next hsame => simp [hsame]
      next hsame => simp [hsame, ih]

theorem filterDuplicates_eq : filterDuplicates = List.eraseDups := by
  funext responses
  induction responses using List.reverseRecOn with
  | nil => rfl
  | append_singleton responses response ih =>
      have hpush : filterDuplicates (responses ++ [response]) =
          pushUnique (filterDuplicates responses) response := List.foldl_concat _ _ _ _
      rw [hpush, ih, pushUnique, List.eraseDups_concat]
      simp only [isDuplicate_iff, List.mem_eraseDups]

/-- Every response is shown once, in the order in which they first came, and filtering again
changes nothing. -/
theorem filterDuplicates_first_occurrences (responses : List NYSDService) :
    (filterDuplicates responses).Nodup ∧
    (∀ sv, sv ∈ filterDuplicates responses ↔ sv ∈ responses) ∧
    ((filterDuplicates responses).Pairwise fun first second =>
      responses.idxOf first < responses.idxOf second) ∧
    filterDuplicates (filterDuplicates responses) = filterDuplicates responses := by
  rw [filterDuplicates_eq]
  refine ⟨List.nodup_eraseDups responses, ?_, List.pairwise_eraseDups responses, ?_⟩
  · intro sv
    exact List.mem_eraseDups
  · exact List.eraseDups_of_nodup (List.nodup_eraseDups responses)

/-- The same name over TCP and over UDP is two services. -/
example (tcp udp : NYSDService) (htcp : tcp.protocol = .tcp) (hudp : udp.protocol = .udp) :
    filterDuplicates [tcp, udp, tcp] = [tcp, udp] := by
  have hne : udp ≠ tcp := by
    intro heq
    rw [heq, htcp] at hudp
    cases hudp
  rw [filterDuplicates_eq]
  simp [List.eraseDups_cons, hne]

end NyanSD
