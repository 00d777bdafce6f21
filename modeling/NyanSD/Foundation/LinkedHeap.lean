import Mathlib.Logic.Function.Basic
import Mathlib.Data.List.Basic

/-!
# Singly linked lists in a heap

A heap maps the addresses of live nodes to the nodes, and a pointer is an address
or null. A chain is what a program walks over when it follows the pointers of live
nodes until it finds null. Nodes are seen through the pointer they hold and
through a payload that does not depend on it.
-/

namespace LinkedHeap

variable {Address Node Payload : Type}

/-- Following the pointers from `start` visits the listed addresses with their
payloads and ends at null; every node on the way is live. -/
inductive Chain (next : Node → Option Address) (payload : Node → Payload)
    (heap : Address → Option Node) : Option Address → List (Address × Payload) → Prop
  | nil : Chain next payload heap none []
  | cons {address : Address} {node : Node} {rest : List (Address × Payload)} :
      heap address = some node → Chain next payload heap (next node) rest →
      Chain next payload heap (some address) ((address, payload node) :: rest)

namespace Chain

variable {next : Node → Option Address} {payload : Node → Payload}
  {heap : Address → Option Node} {start : Option Address}
  {nodes : List (Address × Payload)}

theorem start_eq (hchain : Chain next payload heap start nodes) :
    start = nodes.head?.map Prod.fst := by
  cases hchain <;> rfl

theorem start_eq_none_iff (hchain : Chain next payload heap start nodes) :
    start = none ↔ nodes = [] := by
  cases hchain <;> simp

/-- A heap determines what is visited from a pointer. -/
theorem unique {others : List (Address × Payload)}
    (hchain : Chain next payload heap start nodes)
    (hother : Chain next payload heap start others) : nodes = others := by
  induction hchain generalizing others with
  | nil =>
      cases hother
      rfl
  | cons hnode _ ih =>
      cases hother with
      | cons hnode' hrest =>
          obtain rfl := Option.some.inj (hnode.symm.trans hnode')
          rw [ih hrest]

theorem live {address : Address} (hchain : Chain next payload heap start nodes)
    (hmem : address ∈ nodes.map Prod.fst) : ∃ node, heap address = some node := by
  induction hchain with
  | nil => cases hmem
  | cons hnode _ ih =>
      rw [List.map_cons, List.mem_cons] at hmem
      rcases hmem with rfl | hmem
      · exact ⟨_, hnode⟩
      · exact ih hmem

theorem head_node {address : Address} {content : Payload} {rest : List (Address × Payload)}
    (hchain : Chain next payload heap start ((address, content) :: rest)) :
    ∃ node, start = some address ∧ heap address = some node ∧ payload node = content := by
  cases hchain with
  | cons hnode _ => exact ⟨_, rfl, hnode, rfl⟩

/-- From every address on the way the rest of the list is visited. -/
theorem suffix {before after : List (Address × Payload)} {address : Address}
    {content : Payload} (hsplit : nodes = before ++ (address, content) :: after)
    (hchain : Chain next payload heap start nodes) :
    Chain next payload heap (some address) ((address, content) :: after) := by
  induction before generalizing start nodes with
  | nil =>
      subst hsplit
      cases hchain with
      | cons hnode hrest => exact .cons hnode hrest
  | cons _ before ih =>
      subst hsplit
      cases hchain with
      | cons hnode hrest => exact ih rfl hrest

/-- No node is visited twice: the walk would never end. -/
theorem nodup (hchain : Chain next payload heap start nodes) :
    (nodes.map Prod.fst).Nodup := by
  induction hchain with
  | nil => exact List.nodup_nil
  | @cons address node rest hnode hrest ih =>
      rw [List.map_cons, List.nodup_cons]
      refine ⟨?_, ih⟩
      intro hmem
      -- the walk from the second visit would be the whole walk and a part of it
      obtain ⟨⟨_, content⟩, hentry, rfl⟩ := List.mem_map.mp hmem
      obtain ⟨before, after, hsplit⟩ := List.append_of_mem hentry
      have hagain := hrest.suffix hsplit
      have hsame := congrArg List.length (hagain.unique (.cons hnode hrest))
      have hlonger := congrArg List.length hsplit
      simp only [List.length_cons, List.length_append] at hsame hlonger
      omega

variable [DecidableEq Address]

/-- Changes elsewhere in the heap do not matter. -/
theorem update_of_not_mem {address : Address} {entry : Option Node}
    (hchain : Chain next payload heap start nodes)
    (hmem : address ∉ nodes.map Prod.fst) :
    Chain next payload (Function.update heap address entry) start nodes := by
  induction hchain with
  | nil => exact .nil
  | cons hnode _ ih =>
      rw [List.map_cons, List.mem_cons, not_or] at hmem
      exact .cons (by rwa [Function.update_of_ne (Ne.symm hmem.1)]) (ih hmem.2)

/-- Freeing the first node leaves the chain of the others. -/
theorem free_head {address : Address} {node : Node} {content : Payload}
    {rest : List (Address × Payload)} (hnode : heap address = some node)
    (hchain : Chain next payload heap (some address) ((address, content) :: rest)) :
    Chain next payload (Function.update heap address none) (next node) rest := by
  have hfirst := (List.nodup_cons.mp hchain.nodup).1
  cases hchain with
  | cons hnode' hrest =>
      obtain rfl := Option.some.inj (hnode.symm.trans hnode')
      exact hrest.update_of_not_mem hfirst

/-- Linking a fresh node behind the last one appends it. -/
theorem append_node {last address : Address} {lastNode linked node : Node} {content : Payload}
    {before : List (Address × Payload)} (hfresh : heap address = none)
    (hlast : heap last = some lastNode) (hlinked : next linked = some address)
    (hkept : payload linked = payload lastNode) (hend : next node = none)
    (hchain : Chain next payload heap start (before ++ [(last, content)])) :
    Chain next payload
      (Function.update (Function.update heap address (some node)) last (some linked)) start
      (before ++ [(last, content)] ++ [(address, payload node)]) := by
  have hne : address ≠ last := by
    rintro rfl
    rw [hfresh] at hlast
    cases hlast
  induction before generalizing start with
  | nil =>
      cases hchain with
      | cons hnode _ =>
          obtain rfl := Option.some.inj (hlast.symm.trans hnode)
          rw [← hkept]
          refine .cons (Function.update_self ..) ?_
          rw [hlinked]
          refine .cons ?_ (by rw [hend]; exact .nil)
          rw [Function.update_of_ne hne, Function.update_self]
  | cons entry before ih =>
      have hdistinct := hchain.nodup
      cases hchain with
      | @cons first firstNode _ hnode hrest =>
          have hfirst : first ≠ last := by
            rintro rfl
            simp at hdistinct
          have hother : first ≠ address := by
            rintro rfl
            rw [hfresh] at hnode
            cases hnode
          -- neither update touches a node in front of the last one
          refine .cons ?_ (ih hrest)
          rw [Function.update_of_ne hfirst, Function.update_of_ne hother, hnode]

end Chain

end LinkedHeap
