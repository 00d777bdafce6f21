import Mathlib.Data.List.Basic

/-!
# Computations that inspect an indexed memory

A computation asks for one cell at a time and may choose the next address from
what it has read so far. It has no other way to look at the memory, so whatever
it returns is determined by the cells it asked for. Running it on a total memory
never fails: cells outside the part that was filled simply hold something.
-/

/-- A computation over a memory of `Cell`s addressed by `Address`. -/
inductive Access (Address Cell α : Type)
  | done (value : α)
  | read (address : Address) (next : Cell → Access Address Cell α)

namespace Access

variable {Address Cell α β : Type}

/-- Continue with `next` once the first computation has finished. -/
def andThen : Access Address Cell α → (α → Access Address Cell β) → Access Address Cell β
  | .done value, next => next value
  | .read address rest, next => .read address fun cell => (rest cell).andThen next

instance : Monad (Access Address Cell) where
  pure := .done
  bind := andThen

theorem bind_pure_self (computation : Access Address Cell α) :
    computation.andThen .done = computation := by
  induction computation with
  | done value => rfl
  | read address next ih =>
      apply congrArg (Access.read address)
      funext cell
      exact ih cell

theorem andThen_assoc {γ : Type} (computation : Access Address Cell α)
    (next : α → Access Address Cell β) (last : β → Access Address Cell γ) :
    (computation.andThen next).andThen last =
      computation.andThen fun value => (next value).andThen last := by
  induction computation with
  | done value => rfl
  | read address rest ih =>
      apply congrArg (Access.read address)
      funext cell
      exact ih cell

instance : LawfulMonad (Access Address Cell) :=
  .mk' _ bind_pure_self (fun _ _ => rfl) andThen_assoc

/-- Answer every request from one fixed memory. -/
def run (memory : Address → Cell) : Access Address Cell α → α
  | .done value => value
  | .read address next => (next (memory address)).run memory

/-- Ask for a single cell. -/
def cell (address : Address) : Access Address Cell Cell := .read address .done

@[simp] theorem run_pure (memory : Address → Cell) (value : α) :
    (pure value : Access Address Cell α).run memory = value := rfl

@[simp] theorem run_cell (memory : Address → Cell) (address : Address) :
    (cell address).run memory = memory address := rfl

@[simp] theorem run_bind (memory : Address → Cell) (first : Access Address Cell α)
    (next : α → Access Address Cell β) :
    (first >>= next).run memory = (next (first.run memory)).run memory := by
  change (first.andThen next).run memory = _
  induction first with
  | done value => rfl
  | read address rest ih => exact ih (memory address)

@[simp] theorem run_map (memory : Address → Cell) (f : α → β)
    (computation : Access Address Cell α) :
    (f <$> computation).run memory = f (computation.run memory) := by
  rw [map_eq_pure_bind, run_bind, run_pure]

theorem run_ite (memory : Address → Cell) (condition : Prop) [Decidable condition]
    (first second : Access Address Cell α) :
    (if condition then first else second).run memory =
      if condition then first.run memory else second.run memory := by
  split <;> rfl

/-! ## Consecutive cells -/

/-- The `count` cells from `start` on, in order. -/
def span (start : Nat) : Nat → Access Nat Cell (List Cell)
  | 0 => pure []
  | count + 1 => do
      let first ← cell start
      let rest ← span (start + 1) count
      pure (first :: rest)

/-- The memory holds the listed cells from `start` on. -/
def Holds (memory : Nat → Cell) : Nat → List Cell → Prop
  | _, [] => True
  | start, first :: rest => memory start = first ∧ Holds memory (start + 1) rest

@[simp] theorem holds_nil (memory : Nat → Cell) (start : Nat) : Holds memory start [] := trivial

@[simp] theorem holds_cons (memory : Nat → Cell) (start : Nat) (first : Cell)
    (rest : List Cell) :
    Holds memory start (first :: rest) ↔
      memory start = first ∧ Holds memory (start + 1) rest := Iff.rfl

theorem holds_append (memory : Nat → Cell) (start : Nat) (first second : List Cell) :
    Holds memory start (first ++ second) ↔
      Holds memory start first ∧ Holds memory (start + first.length) second := by
  induction first generalizing start with
  | nil => simp
  | cons head tail ih =>
      simp only [List.cons_append, holds_cons, ih, List.length_cons, and_assoc]
      rw [show start + 1 + tail.length = start + (tail.length + 1) by omega]

theorem holds_span (memory : Nat → Cell) (start count : Nat) :
    Holds memory start ((span start count).run memory) := by
  induction count generalizing start with
  | zero => exact holds_nil memory start
  | succ count ih =>
      simp only [span, run_bind, run_cell, run_pure]
      exact ⟨rfl, ih (start + 1)⟩

@[simp] theorem length_run_span (memory : Nat → Cell) (start count : Nat) :
    ((span start count).run memory).length = count := by
  induction count generalizing start with
  | zero => rfl
  | succ count ih => simp only [span, run_bind, run_cell, run_pure, List.length_cons, ih]

/-- What stands behind the first cells. -/
theorem Holds.behind {memory : Nat → Cell} {start width : Nat} {first second : List Cell}
    (hholds : Holds memory start (first ++ second)) (hwidth : first.length = width) :
    Holds memory (start + width) second :=
  hwidth ▸ ((holds_append memory start first second).mp hholds).2

/-- Of two lists that are held at one place, the shorter one starts the other. -/
theorem Holds.isPrefix {memory : Nat → Cell} {start : Nat} {cells others : List Cell}
    (hholds : Holds memory start cells) (hothers : Holds memory start others)
    (hlength : cells.length ≤ others.length) : cells <+: others := by
  induction cells generalizing start others with
  | nil => exact List.nil_prefix
  | cons head tail ih =>
      cases others with
      | nil => exact absurd hlength (Nat.not_succ_le_zero _)
      | cons other more =>
          obtain ⟨rfl, htail⟩ := hholds
          obtain ⟨rfl, hmore⟩ := hothers
          exact (List.prefix_cons_inj _).mpr (ih htail hmore (Nat.le_of_succ_le_succ hlength))

theorem Holds.run_span {memory : Nat → Cell} {start count : Nat} {cells : List Cell}
    (hholds : Holds memory start cells) (hcount : count ≤ cells.length) :
    (span start count).run memory = cells.take count := by
  have hlength := length_run_span memory start count
  have hprefix := (holds_span memory start count).isPrefix hholds (by rw [hlength]; exact hcount)
  rw [List.prefix_iff_eq_take.mp hprefix, hlength]

theorem Holds.drop {memory : Nat → Cell} {start : Nat} {cells : List Cell}
    (hholds : Holds memory start cells) (count : Nat) :
    Holds memory (start + count) (cells.drop count) := by
  induction count generalizing start cells with
  | zero => exact hholds
  | succ count ih =>
      cases cells with
      | nil => exact holds_nil memory _
      | cons head tail =>
          rw [show start + (count + 1) = start + 1 + count by omega]
          exact ih hholds.2

/-- Holding a list is agreeing with it cell by cell. -/
theorem holds_iff_getElem (memory : Nat → Cell) (start : Nat) (cells : List Cell) :
    Holds memory start cells ↔ ∀ i (h : i < cells.length), memory (start + i) = cells[i] := by
  induction cells generalizing start with
  | nil => simp
  | cons head tail ih =>
      rw [holds_cons, ih]
      constructor
      · rintro ⟨hhead, htail⟩ i hi
        cases i with
        | zero => simpa using hhead
        | succ i =>
            rw [show start + (i + 1) = start + 1 + i by omega]
            exact htail i (by simpa using hi)
      · intro hall
        refine ⟨hall 0 (by simp), ?_⟩
        intro i hi
        rw [show start + 1 + i = start + (i + 1) by omega]
        exact hall (i + 1) (by simpa using hi)

/-- A span over cells the memory holds returns exactly these cells. -/
theorem run_span_of_holds {memory : Nat → Cell} {start : Nat} {cells : List Cell}
    (hholds : Holds memory start cells) :
    (span start cells.length).run memory = cells := by
  induction cells generalizing start with
  | nil => rfl
  | cons head tail ih =>
      simp only [List.length_cons, span, run_bind, run_cell, run_pure]
      rw [hholds.1, ih hholds.2]

theorem run_span_eq_iff_holds {memory : Nat → Cell} {start : Nat} {cells : List Cell} :
    (span start cells.length).run memory = cells ↔ Holds memory start cells := by
  refine ⟨?_, run_span_of_holds⟩
  intro hspan
  induction cells generalizing start with
  | nil => exact holds_nil memory start
  | cons head tail ih =>
      simp only [List.length_cons, span, run_bind, run_cell, run_pure, List.cons.injEq] at hspan
      exact ⟨hspan.1, ih hspan.2⟩

instance [DecidableEq Cell] (memory : Nat → Cell) (start : Nat) (cells : List Cell) :
    Decidable (Holds memory start cells) :=
  decidable_of_iff _ run_span_eq_iff_holds

/-! ## The addresses a computation asks for -/

/-- The addresses of the cells that a run asks for, in order. -/
def reads (memory : Address → Cell) : Access Address Cell α → List Address
  | .done _ => []
  | .read address next => address :: (next (memory address)).reads memory

@[simp] theorem reads_pure (memory : Address → Cell) (value : α) :
    (pure value : Access Address Cell α).reads memory = [] := rfl

@[simp] theorem reads_cell (memory : Address → Cell) (address : Address) :
    (cell address).reads memory = [address] := rfl

@[simp] theorem reads_bind (memory : Address → Cell) (first : Access Address Cell α)
    (next : α → Access Address Cell β) :
    (first >>= next).reads memory =
      first.reads memory ++ (next (first.run memory)).reads memory := by
  change (first.andThen next).reads memory = _
  induction first with
  | done value => rfl
  | read address rest ih => exact congrArg (address :: ·) (ih (memory address))

theorem reads_ite (memory : Address → Cell) (condition : Prop) [Decidable condition]
    (first second : Access Address Cell α) :
    (if condition then first else second).reads memory =
      if condition then first.reads memory else second.reads memory := by
  split <;> rfl

/-- A memory that agrees on the cells asked for gives the same run. -/
theorem run_congr {memory other : Address → Cell} (computation : Access Address Cell α)
    (hagree : ∀ address ∈ computation.reads memory, other address = memory address) :
    computation.run other = computation.run memory ∧
      computation.reads other = computation.reads memory := by
  induction computation with
  | done value => exact ⟨rfl, rfl⟩
  | read address next ih =>
      obtain ⟨hfirst, hrest⟩ := List.forall_mem_cons.mp hagree
      obtain ⟨hrun, hreads⟩ := ih (memory address) hrest
      rw [run, reads, hfirst]
      exact ⟨hrun, congrArg (address :: ·) hreads⟩

/-- Every cell that is asked for lies below the bound. -/
def Within (memory : Nat → Cell) (bound : Nat) (computation : Access Nat Cell α) : Prop :=
  ∀ address ∈ computation.reads memory, address < bound

section Within

variable {memory : Nat → Cell} {bound : Nat}

@[simp] theorem within_pure (value : α) :
    Within memory bound (pure value : Access Nat Cell α) := nofun

@[simp] theorem within_cell (address : Nat) :
    Within memory bound (cell address) ↔ address < bound := by
  simp [Within]

theorem within_bind (first : Access Nat Cell α) (next : α → Access Nat Cell β) :
    Within memory bound (first >>= next) ↔
      Within memory bound first ∧ Within memory bound (next (first.run memory)) := by
  simp only [Within, reads_bind, List.forall_mem_append]

@[simp] theorem within_map (f : α → β) (computation : Access Nat Cell α) :
    Within memory bound (f <$> computation) ↔ Within memory bound computation := by
  rw [map_eq_pure_bind, within_bind, and_iff_left (within_pure _)]

theorem within_ite (condition : Prop) [Decidable condition] (first second : Access Nat Cell α) :
    Within memory bound (if condition then first else second) ↔
      if condition then Within memory bound first else Within memory bound second := by
  split <;> rfl

/-- Behind a check that returns early, the rest is read only if the check passed. -/
theorem within_guard (condition : Prop) [Decidable condition] (value : α)
    (next : Access Nat Cell α) :
    Within memory bound (if condition then pure value else next) ↔
      (¬ condition → Within memory bound next) := by
  split
  next hfails => exact iff_of_true (within_pure _) fun hpasses => absurd hfails hpasses
  next hpasses => exact ⟨fun hnext _ => hnext, fun hnext => hnext hpasses⟩

theorem within_span (start count : Nat) :
    Within memory bound (span start count) ↔ count = 0 ∨ start + count ≤ bound := by
  induction count generalizing start with
  | zero => simp [span]
  | succ count ih =>
      rw [span, within_bind, within_bind, within_cell, ih]
      simp only [within_pure, and_true]
      omega

/-- What is read within the bound does not depend on the cells beyond it. -/
theorem Within.congr {other : Nat → Cell} {computation : Access Nat Cell α}
    (hwithin : Within memory bound computation)
    (hagree : ∀ address < bound, other address = memory address) :
    computation.run other = computation.run memory ∧ Within other bound computation := by
  obtain ⟨hrun, hreads⟩ := run_congr computation fun address hmem =>
    hagree address (hwithin address hmem)
  exact ⟨hrun, by rw [Within, hreads]; exact hwithin⟩

end Within

end Access
