import CoreFromDust.Os.Trap

/-!
# Traps preserve the user context

What `__alltraps` stores and `__restore` loads, in terms of the struct `TrapContext`: its numeric
offsets are those at which the struct has its fields, and every register that they overwrite has
been saved before or is restored after.
-/

namespace CoreFromDust.Os

open CoreFromDust.Lib.RiscV

/-- A `TrapContext` in one page that is mapped: it is at `va` in the address space and at `base` in
the physical memory. -/
structure ContextAt (mmu : Mmu) (satp va : UInt64) (base : Nat) : Prop where
  mapped : ∃ frame, mmu satp (va.toNat / 4096) = some frame ∧
    base = frame * 4096 + va.toNat % 4096
  aligned : va.toNat % 8 = 0
  inside : va.toNat % 4096 + TrapContext.size ≤ 4096

theorem ContextAt.points {mmu : Mmu} {satp va : UInt64} {base : Nat}
    (context : ContextAt mmu satp va base) : Points mmu satp va base 37 := by
  obtain ⟨frame, mapped, rfl⟩ := context.mapped
  exact points_of_page mapped context.aligned context.inside

/-- The words of a `TrapContext`: the numbers by which the assembly code counts them. -/
theorem TrapContext.ofMemory_eq (m : Nat → UInt8) (base : Nat) :
    TrapContext.ofMemory m base =
      { x := fun n => load64 m (base + n.val * 8)
        sstatus := load64 m (base + 32 * 8)
        sepc := load64 m (base + 33 * 8)
        kernelSatp := load64 m (base + 34 * 8)
        kernelSp := load64 m (base + 35 * 8)
        trapHandler := load64 m (base + 36 * 8) } := rfl

section Alltraps

variable {mmu : Mmu} {text : Text} {h : Hart} {base : Nat}

/-- The registers that are saved while they still hold their values, with their slots. -/
def savedFirst : List (Reg × Nat) :=
  [(x1, 1), (x3, 3)] ++ (List.range' 5 27).map fun n => (xreg n, n)

/-- The end of `__alltraps`. -/
def enterHandler : List Instr :=
  [.ld t0 (34 * 8) sp, .ld t1 (36 * 8) sp, .ld sp (35 * 8) sp, .csrw .satp t0, .sfenceVma, .jr t1]

/-- The parts of `__alltraps`. -/
theorem alltraps_eq : alltraps = .csrrw sp .sscratch sp :: (stores sp savedFirst ++
    (.csrr t0 .sstatus :: .csrr t1 .sepc :: (stores sp [(t0, 32), (t1, 33)] ++
      (.csrr t2 .sscratch :: (stores sp [(t2, 2)] ++ enterHandler))))) := rfl

/-- What `__alltraps` stores. -/
def savedWords (h : Hart) : List (Nat × UInt64) :=
  savedFirst.map (fun pair => (pair.2, h.x pair.1)) ++
    [(32, h.csr .sstatus), (33, h.csr .sepc), (2, h.x sp)]

/-- The slots that `__alltraps` stores to. -/
theorem savedWords_slots (h : Hart) : (savedWords h).map Prod.fst =
    [1, 3] ++ List.range' 5 27 ++ [32, 33, 2] := rfl

theorem savedWords_once (h : Hart) : ((savedWords h).map Prod.fst).Nodup := by
  rw [savedWords_slots]
  decide

/-- Every register but `x0`, `sp` and `tp` is stored to the slot of its number at first. -/
theorem mem_savedFirst : ∀ n : Reg, n ≠ 0 → n ≠ sp → n ≠ 4 → (n, n.val) ∈ savedFirst := by decide

theorem savedFirst_spec : ∀ pair ∈ savedFirst, pair.1 ≠ 0 ∧ pair.1 ≠ sp ∧ pair.2 < 37 := by decide

/-- The registers of the context, but for `x0` and `tp`. -/
theorem mem_savedWords (h : Hart) {n : Reg} (notZero : n ≠ 0) (notTp : n ≠ 4) :
    (n.val, h.x n) ∈ savedWords h := by
  rw [savedWords, List.mem_append]
  by_cases user : n = sp
  · subst user
    exact .inr (by simp)
  · exact .inl (List.mem_map.mpr ⟨(n, n.val), mem_savedFirst n notZero user notTp, rfl⟩)

/-- The context after the stores. -/
theorem ofMemory_savedWords (h : Hart) (m : Nat → UInt8) (base : Nat) :
    TrapContext.ofMemory (storeAll base (savedWords h) m) base =
      { TrapContext.ofMemory m base with
        x := fun n => if n = 0 ∨ n = 4 then (TrapContext.ofMemory m base).x n else h.x n
        sstatus := h.csr .sstatus
        sepc := h.csr .sepc } := by
  have once := savedWords_once h
  have other : ∀ k, k ∉ [1, 3] ++ List.range' 5 27 ++ [32, 33, 2] →
      load64 (storeAll base (savedWords h) m) (base + k * 8) = load64 m (base + k * 8) := by
    intro k absent
    exact load64_storeAll_other (by rwa [savedWords_slots])
  have saved : (fun n : Reg => load64 (storeAll base (savedWords h) m) (base + n.val * 8)) =
      fun n : Reg => if n = 0 ∨ n = 4 then load64 m (base + n.val * 8) else h.x n := by
    funext n
    split
    · next kept =>
      rcases kept with rfl | rfl
      · exact other 0 (by decide)
      · exact other 4 (by decide)
    · next user =>
      rw [not_or] at user
      exact load64_storeAll once (mem_savedWords h user.1 user.2)
  have status : load64 (storeAll base (savedWords h) m) (base + 32 * 8) = h.csr .sstatus :=
    load64_storeAll once (by simp [savedWords])
  have epc : load64 (storeAll base (savedWords h) m) (base + 33 * 8) = h.csr .sepc :=
    load64_storeAll once (by simp [savedWords])
  rw [TrapContext.ofMemory_eq, TrapContext.ofMemory_eq, saved, status, epc, other 34 (by decide),
    other 35 (by decide), other 36 (by decide)]

/-- `__alltraps`, entered in the state `h`, has stored `words` so far: `sp` is the pointer to the
context, and `sscratch` keeps the stack of the user. -/
structure Saving (base : Nat) (h : Hart) (words : List (Nat × UInt64)) (g : Hart) : Prop where
  pointer : g.get sp = h.csr .sscratch
  stack : g.csr .sscratch = h.x sp
  csr : ∀ c, c ≠ .sscratch → g.csr c = h.csr c
  mem : g.mem = storeAll base words h.mem

/-- The swap of `sp` and `sscratch`. -/
theorem saving_swap (base : Nat) (user : text.Mapped mmu (h.csr .satp)) :
    ∃ g, (∀ is, run mmu text (.csrrw sp .sscratch sp :: is) h = run mmu text is g) ∧
      Saving base h [] g ∧
      ∀ r, r ≠ 0 → r ≠ sp → g.get r = h.x r := by
  refine ⟨(h.setCsr .sscratch (h.get sp)).set sp (h.csr .sscratch), fun is => ?_,
    ⟨?_, rfl, ?_, rfl⟩, ?_⟩
  · rw [run_cons user, exec, Option.bind_some]
  · rw [Hart.get_set_self (by decide)]
  · intro c other
    rw [Hart.set_csr, Hart.setCsr_csr, if_neg other]
  · intro r notZero notSp
    rw [Hart.get_set_of_ne notSp, Hart.setCsr_get, Hart.get, if_neg notZero]

namespace Saving

variable {words : List (Nat × UInt64)} {g : Hart}

theorem mapped (saving : Saving base h words g) (user : text.Mapped mmu (h.csr .satp)) :
    text.Mapped mmu (g.csr .satp) := by
  rwa [saving.csr .satp (by decide)]

theorem points (saving : Saving base h words g)
    (context : ContextAt mmu (h.csr .satp) (h.csr .sscratch) base) :
    Points mmu (g.csr .satp) (h.csr .sscratch) base 37 := by
  rw [saving.csr .satp (by decide)]
  exact context.points

/-- Storing registers. -/
theorem store (saving : Saving base h words g)
    (context : ContextAt mmu (h.csr .satp) (h.csr .sscratch) base)
    (user : text.Mapped mmu (h.csr .satp)) (pairs : List (Reg × Nat))
    (inside : ∀ pair ∈ pairs, pair.2 < 37) :
    ∃ g', run mmu text (stores sp pairs) g = some g' ∧
      Saving base h (words ++ pairs.map fun pair => (pair.2, g.get pair.1)) g' ∧
      ∀ r, g'.get r = g.get r := by
  have ran := run_stores (saving.points context) saving.pointer (saving.mapped user) inside
  refine ⟨_, ran, ⟨saving.pointer, saving.stack, saving.csr, ?_⟩, fun _ => rfl⟩
  rw [storeAll_append, ← saving.mem]

/-- Reading a CSR into another register than `sp`. -/
theorem read (saving : Saving base h words g) (user : text.Mapped mmu (h.csr .satp)) (rd : Reg)
    (notZero : rd ≠ 0) (notSp : rd ≠ sp) (c : Csr) :
    ∃ g', (∀ is, run mmu text (.csrr rd c :: is) g = run mmu text is g') ∧
      Saving base h words g' ∧ g'.get rd = g.csr c ∧ ∀ r, r ≠ rd → g'.get r = g.get r := by
  refine ⟨g.set rd (g.csr c), fun is => ?_, ⟨?_, saving.stack, saving.csr, saving.mem⟩,
    Hart.get_set_self notZero, fun r other => Hart.get_set_of_ne other⟩
  · rw [run_cons (saving.mapped user), exec, Option.bind_some]
  · rw [Hart.get_set_of_ne (Ne.symm notSp), saving.pointer]

/-- The end of `__alltraps`: the fields of the kernel are loaded. -/
theorem enter (saving : Saving base h (savedWords h) g)
    (context : ContextAt mmu (h.csr .satp) (h.csr .sscratch) base)
    (user : text.Mapped mmu (h.csr .satp))
    (kernel : text.Mapped mmu (TrapContext.ofMemory h.mem base).kernelSatp) :
    ∃ h', run mmu text enterHandler g = some h' ∧ h'.mem = storeAll base (savedWords h) h.mem ∧
      h'.get sp = (TrapContext.ofMemory h.mem base).kernelSp ∧
      h'.csr .satp = (TrapContext.ofMemory h.mem base).kernelSatp ∧
      h'.jumped = some (TrapContext.ofMemory h.mem base).trapHandler := by
  have points := saving.points context
  have mapped := saving.mapped user
  have fields := ofMemory_savedWords h h.mem base
  rw [← saving.mem, TrapContext.ofMemory_eq, TrapContext.mk.injEq] at fields
  obtain ⟨-, -, -, satpEq, spEq, handlerEq⟩ := fields
  obtain ⟨g₁, ran₁, csr₁, mem₁, -, satp₁, others₁⟩ :=
    run_ld t0 34 points saving.pointer mapped (by decide) (by decide)
  have pointer₁ : g₁.get sp = h.csr .sscratch := (others₁ sp (by decide)).trans saving.pointer
  rw [← csr₁] at points mapped
  obtain ⟨g₂, ran₂, csr₂, mem₂, -, handler₂, others₂⟩ :=
    run_ld t1 36 points pointer₁ mapped (by decide) (by decide)
  have pointer₂ : g₂.get sp = h.csr .sscratch := (others₂ sp (by decide)).trans pointer₁
  rw [← csr₂] at points mapped
  obtain ⟨g₃, ran₃, csr₃, mem₃, -, stack₃, others₃⟩ :=
    run_ld sp 35 points pointer₂ mapped (by decide) (by decide)
  rw [← csr₃] at mapped
  have satp₃ : g₃.get t0 = (TrapContext.ofMemory h.mem base).kernelSatp := by
    rw [others₃ t0 (by decide), others₂ t0 (by decide), satp₁, satpEq]
  have handler₃ : g₃.get t1 = (TrapContext.ofMemory h.mem base).trapHandler := by
    rw [others₃ t1 (by decide), handler₂, mem₁, handlerEq]
  have sp₃ : g₃.get sp = (TrapContext.ofMemory h.mem base).kernelSp := by
    rw [stack₃, mem₂, mem₁, spEq]
  -- from here on the code is fetched in the address space of the kernel
  have kernel' : text.Mapped mmu ((g₃.setCsr .satp (g₃.get t0)).csr .satp) := by
    rw [Hart.setCsr_csr, if_pos rfl, satp₃]
    exact kernel
  rw [enterHandler, ran₁, ran₂, ran₃, run_cons mapped, exec, Option.bind_some, run_cons kernel',
    exec, Option.bind_some, run_cons kernel', exec, Option.bind_some, run]
  refine ⟨_, rfl, ?_, sp₃, ?_, ?_⟩
  · rw [Hart.setCsr_mem, mem₃, mem₂, mem₁, saving.mem]
  · simp only [Hart.setCsr_csr, if_true, satp₃]
  · rw [Hart.setCsr_get, handler₃]

end Saving

/-- `__alltraps` with the `TrapContext` behind `sscratch`. -/
theorem alltraps_runs (context : ContextAt mmu (h.csr .satp) (h.csr .sscratch) base)
    (user : text.Mapped mmu (h.csr .satp))
    (kernel : text.Mapped mmu (TrapContext.ofMemory h.mem base).kernelSatp) :
    ∃ h', run mmu text alltraps h = some h' ∧ h'.mem = storeAll base (savedWords h) h.mem ∧
      h'.get sp = (TrapContext.ofMemory h.mem base).kernelSp ∧
      h'.csr .satp = (TrapContext.ofMemory h.mem base).kernelSatp ∧
      h'.jumped = some (TrapContext.ofMemory h.mem base).trapHandler := by
  obtain ⟨g₁, ran₁, saving₁, regs⟩ := saving_swap base user
  obtain ⟨g₂, ran₂, saving₂, -⟩ := saving₁.store context user savedFirst
    fun pair inFirst => (savedFirst_spec pair inFirst).2.2
  have stored : savedFirst.map (fun pair => (pair.2, g₁.get pair.1)) =
      savedFirst.map fun pair => (pair.2, h.x pair.1) := by
    apply List.map_congr_left
    intro pair inFirst
    obtain ⟨notZero, notSp, -⟩ := savedFirst_spec pair inFirst
    rw [regs _ notZero notSp]
  rw [stored, List.nil_append] at saving₂
  obtain ⟨g₃, ran₃, saving₃, status₃, -⟩ := saving₂.read user t0 (by decide) (by decide) .sstatus
  obtain ⟨g₄, ran₄, saving₄, epc, others₄⟩ := saving₃.read user t1 (by decide) (by decide) .sepc
  obtain ⟨g₅, ran₅, saving₅, -⟩ := saving₄.store context user [(t0, 32), (t1, 33)] (by decide)
  obtain ⟨g₆, ran₆, saving₆, stack, -⟩ := saving₅.read user t2 (by decide) (by decide) .sscratch
  obtain ⟨g₇, ran₇, saving₇, -⟩ := saving₆.store context user [(t2, 2)] (by decide)
  have status : g₄.get t0 = h.csr .sstatus := by
    rw [others₄ t0 (by decide), status₃, saving₂.csr _ (by decide)]
  rw [saving₃.csr _ (by decide)] at epc
  rw [saving₅.stack] at stack
  have words : savedFirst.map (fun pair => (pair.2, h.x pair.1)) ++
      [(t0, 32), (t1, 33)].map (fun pair => (pair.2, g₄.get pair.1)) ++
      [(t2, 2)].map (fun pair => (pair.2, g₆.get pair.1)) = savedWords h := by
    rw [savedWords, List.append_assoc]
    simp only [List.map_cons, List.map_nil, status, epc, stack, List.cons_append, List.nil_append]
  rw [words] at saving₇
  obtain ⟨h', ran, result⟩ := saving₇.enter context user kernel
  refine ⟨h', ?_, result⟩
  rw [alltraps_eq, ran₁, run_append ran₂, ran₃, ran₄, run_append ran₅, ran₆, run_append ran₇, ran]

end Alltraps

section Restore

variable {mmu : Mmu} {text : Text} {h : Hart} {base : Nat}

/-- The registers that are restored through `sp`. -/
def restoredRegs : List Reg := [x1, x3] ++ (List.range' 5 27).map xreg

theorem mem_restoredRegs : ∀ n : Reg, n ≠ 0 → n ≠ sp → n ≠ 4 → n ∈ restoredRegs := by decide

/-- The beginning of `__restore`. -/
def switchToUser : List Instr := [.csrw .satp a1, .sfenceVma, .csrw .sscratch a0, .mv sp a0]

/-- The part of `__restore` for `sstatus` and `sepc`. -/
def restoreStatus : List Instr :=
  [.ld t0 (32 * 8) sp, .ld t1 (33 * 8) sp, .csrw .sstatus t0, .csrw .sepc t1]

/-- The parts of `__restore`. -/
theorem restoreContext_eq : restoreContext = switchToUser ++ (restoreStatus ++
    (loads sp restoredRegs ++ [.ld sp (2 * 8) sp])) := rfl

/-- `__restore`, entered in the state `h`, is in the address space of the user and `sp` is the
pointer to the context. -/
structure Restoring (h : Hart) (g : Hart) : Prop where
  pointer : g.get sp = h.get a0
  satp : g.csr .satp = h.get a1
  sscratch : g.csr .sscratch = h.get a0
  mem : g.mem = h.mem

/-- The switch to the address space of the user. -/
theorem restoring_switch (kernel : text.Mapped mmu (h.csr .satp))
    (user : text.Mapped mmu (h.get a1)) :
    ∃ g, run mmu text switchToUser h = some g ∧ Restoring h g := by
  have user₁ : text.Mapped mmu ((h.setCsr .satp (h.get a1)).csr .satp) := by
    rwa [Hart.setCsr_csr, if_pos rfl]
  have user₂ : text.Mapped mmu (((h.setCsr .satp (h.get a1)).setCsr .sscratch (h.get a0)).csr
      .satp) := by
    rwa [Hart.setCsr_csr, if_neg (by decide)]
  refine ⟨((h.setCsr .satp (h.get a1)).setCsr .sscratch (h.get a0)).set sp (h.get a0), ?_,
    Hart.get_set_self (by decide), rfl, rfl, rfl⟩
  rw [switchToUser, run_cons kernel, exec, Option.bind_some, run_cons user₁, exec, Option.bind_some,
    run_cons user₁, exec, Option.bind_some, Hart.setCsr_get, run_cons user₂, exec, Option.bind_some,
    Hart.setCsr_get, Hart.setCsr_get, run]

namespace Restoring

variable {g : Hart}

theorem mapped (restoring : Restoring h g) (user : text.Mapped mmu (h.get a1)) :
    text.Mapped mmu (g.csr .satp) := by
  rwa [restoring.satp]

theorem points (restoring : Restoring h g) (context : ContextAt mmu (h.get a1) (h.get a0) base) :
    Points mmu (g.csr .satp) (h.get a0) base 37 := by
  rw [restoring.satp]
  exact context.points

/-- `sstatus` and `sepc` are restored through `t0` and `t1`. -/
theorem status (restoring : Restoring h g) (context : ContextAt mmu (h.get a1) (h.get a0) base)
    (user : text.Mapped mmu (h.get a1)) :
    ∃ g', run mmu text restoreStatus g = some g' ∧ Restoring h g' ∧
      g'.csr .sstatus = (TrapContext.ofMemory h.mem base).sstatus ∧
      g'.csr .sepc = (TrapContext.ofMemory h.mem base).sepc := by
  have points := restoring.points context
  have mapped := restoring.mapped user
  rw [TrapContext.ofMemory_eq, ← restoring.mem]
  obtain ⟨g₁, ran₁, csr₁, mem₁, -, status₁, others₁⟩ :=
    run_ld t0 32 points restoring.pointer mapped (by decide) (by decide)
  have pointer₁ : g₁.get sp = h.get a0 := (others₁ sp (by decide)).trans restoring.pointer
  rw [← csr₁] at points mapped
  obtain ⟨g₂, ran₂, csr₂, mem₂, -, epc₂, others₂⟩ :=
    run_ld t1 33 points pointer₁ mapped (by decide) (by decide)
  have pointer₂ : g₂.get sp = h.get a0 := (others₂ sp (by decide)).trans pointer₁
  have status₂ : g₂.get t0 = load64 g.mem (base + 32 * 8) :=
    (others₂ t0 (by decide)).trans status₁
  rw [← csr₂] at mapped
  have mapped₃ : text.Mapped mmu ((g₂.setCsr .sstatus (g₂.get t0)).csr .satp) := by
    rwa [Hart.setCsr_csr, if_neg (by decide)]
  rw [restoreStatus, ran₁, ran₂, run_cons mapped, exec, Option.bind_some, run_cons mapped₃, exec,
    Option.bind_some, run]
  refine ⟨_, rfl, ⟨pointer₂, ?_, ?_, ?_⟩, ?_, ?_⟩
  · rw [Hart.setCsr_csr, if_neg (by decide), Hart.setCsr_csr, if_neg (by decide), csr₂, csr₁,
      restoring.satp]
  · rw [Hart.setCsr_csr, if_neg (by decide), Hart.setCsr_csr, if_neg (by decide), csr₂, csr₁,
      restoring.sscratch]
  · rw [Hart.setCsr_mem, Hart.setCsr_mem, mem₂, mem₁, restoring.mem]
  · rw [Hart.setCsr_csr, if_neg (by decide), Hart.setCsr_csr, if_pos rfl, status₂]
  · rw [Hart.setCsr_csr, if_pos rfl, Hart.setCsr_get, epc₂, mem₁]

/-- The general registers are restored, `sp` as the last. -/
theorem registers (restoring : Restoring h g)
    (context : ContextAt mmu (h.get a1) (h.get a0) base) (user : text.Mapped mmu (h.get a1)) :
    ∃ g', run mmu text (loads sp restoredRegs ++ [.ld sp (2 * 8) sp]) g = some g' ∧
      g'.csr = g.csr ∧ g'.mem = h.mem ∧
      ∀ n, n ≠ 0 → n ≠ 4 → g'.get n = (TrapContext.ofMemory h.mem base).x n := by
  obtain ⟨g₁, ran, regs, csr, mem, -⟩ := run_loads (restoring.points context) restoring.pointer
    (restoring.mapped user) restoredRegs (by decide) (by decide) (by decide)
  have pointer₁ : g₁.get sp = h.get a0 := by
    rw [regs, if_neg (by decide), restoring.pointer]
  have points₁ := restoring.points context
  have mapped₁ := restoring.mapped user
  rw [← csr] at points₁ mapped₁
  obtain ⟨g₂, ran₂, csr₂, mem₂, -, stack₂, others₂⟩ :=
    run_ld sp 2 points₁ pointer₁ mapped₁ (by decide) (by decide)
  refine ⟨g₂, ?_, csr₂.trans csr, mem₂.trans (mem.trans restoring.mem), fun n notZero notTp => ?_⟩
  · rw [run_append ran, ran₂, run]
  · rw [TrapContext.ofMemory_eq]
    by_cases stack : n = sp
    · rw [stack, stack₂, mem, restoring.mem]
      rfl
    · rw [others₂ n stack, regs, if_pos (mem_restoredRegs n notZero stack notTp), restoring.mem]

end Restoring

/-- `__restore` with the `TrapContext` behind `a0` and the address space of `a1`. -/
theorem restore_runs (context : ContextAt mmu (h.get a1) (h.get a0) base)
    (kernel : text.Mapped mmu (h.csr .satp)) (user : text.Mapped mmu (h.get a1)) :
    ∃ h', run mmu text restoreContext h = some h' ∧
      (∀ n, n ≠ 0 → n ≠ 4 → h'.get n = (TrapContext.ofMemory h.mem base).x n) ∧
      h'.csr .sstatus = (TrapContext.ofMemory h.mem base).sstatus ∧
      h'.csr .sepc = (TrapContext.ofMemory h.mem base).sepc ∧
      h'.csr .sscratch = h.get a0 ∧ h'.csr .satp = h.get a1 ∧ h'.mem = h.mem := by
  obtain ⟨g₁, ran₁, restoring₁⟩ := restoring_switch kernel user
  obtain ⟨g₂, ran₂, restoring₂, status, epc⟩ := restoring₁.status context user
  obtain ⟨h', ran, csr, mem, regs⟩ := restoring₂.registers context user
  refine ⟨h', ?_, regs, ?_, ?_, ?_, ?_, mem⟩
  · rw [restoreContext_eq, run_append ran₁, run_append ran₂, ran]
  · rw [csr, status]
  · rw [csr, epc]
  · rw [csr, restoring₂.sscratch]
  · rw [csr, restoring₂.satp]

/-- After the `sret` of `__restore` the user goes on at `sepc` with these registers. -/
theorem restore_returns (context : ContextAt mmu (h.get a1) (h.get a0) base)
    (kernel : text.Mapped mmu (h.csr .satp)) (user : text.Mapped mmu (h.get a1)) :
    ∃ h', run mmu text restore h = some h' ∧
      h'.jumped = some (TrapContext.ofMemory h.mem base).sepc ∧
      ∀ n, n ≠ 0 → n ≠ 4 → h'.get n = (TrapContext.ofMemory h.mem base).x n := by
  obtain ⟨g, ran, regs, -, epc, -, satp, -⟩ := restore_runs context kernel user
  have mapped : text.Mapped mmu (g.csr .satp) := by rwa [satp]
  refine ⟨{ g.setCsr .sstatus (sretStatus (g.csr .sstatus)) with jumped := some (g.csr .sepc) }, ?_,
    congrArg some epc, regs⟩
  rw [restore, run_append ran, run_cons mapped, exec, Option.bind_some, run]

end Restore

/-- For all user registers and contexts: `__alltraps` saves the registers, `sstatus` and `sepc` in
the fields of the `TrapContext` and enters the handler as the other fields say, which stay as they
are, as does the rest of the memory. `__restore`, called with a pointer to a context, wherever that
is mapped by then and whatever it holds, comes to `sret` with the fields in the registers, and with
the values from before the trap when the context has not changed. -/
theorem trap_preserves {mmu : Mmu} {text : Text} {h : Hart} {base : Nat}
    (context : ContextAt mmu (h.csr .satp) (h.csr .sscratch) base)
    (user : text.Mapped mmu (h.csr .satp))
    (kernel : text.Mapped mmu (TrapContext.ofMemory h.mem base).kernelSatp) :
    ∃ h', run mmu text alltraps h = some h' ∧
      TrapContext.ofMemory h'.mem base = { TrapContext.ofMemory h.mem base with
        x := fun n => if n = 0 ∨ n = 4 then (TrapContext.ofMemory h.mem base).x n else h.x n
        sstatus := h.csr .sstatus
        sepc := h.csr .sepc } ∧
      (∀ address, address < base ∨ base + TrapContext.size ≤ address →
        h'.mem address = h.mem address) ∧
      h'.get sp = (TrapContext.ofMemory h.mem base).kernelSp ∧
      h'.csr .satp = (TrapContext.ofMemory h.mem base).kernelSatp ∧
      h'.jumped = some (TrapContext.ofMemory h.mem base).trapHandler ∧
      ∀ (mmu' : Mmu) (g : Hart) (base' : Nat), g.get a0 = h.csr .sscratch →
        ContextAt mmu' (g.get a1) (g.get a0) base' → text.Mapped mmu' (g.csr .satp) →
        text.Mapped mmu' (g.get a1) →
        ∃ g', run mmu' text restoreContext g = some g' ∧
          (∀ n, n ≠ 0 → n ≠ 4 → g'.get n = (TrapContext.ofMemory g.mem base').x n) ∧
          g'.csr .sstatus = (TrapContext.ofMemory g.mem base').sstatus ∧
          g'.csr .sepc = (TrapContext.ofMemory g.mem base').sepc ∧
          g'.csr .sscratch = h.csr .sscratch ∧ g'.csr .satp = g.get a1 ∧ g'.mem = g.mem ∧
          (TrapContext.ofMemory g.mem base' = TrapContext.ofMemory h'.mem base →
            (∀ n, n ≠ 0 → n ≠ 4 → g'.get n = h.get n) ∧
              g'.csr .sstatus = h.csr .sstatus ∧ g'.csr .sepc = h.csr .sepc) := by
  obtain ⟨h', ran, mem, stack, satp, handler⟩ := alltraps_runs context user kernel
  have saved := ofMemory_savedWords h h.mem base
  rw [← mem] at saved
  refine ⟨h', ran, saved, ?_, stack, satp, handler, ?_⟩
  · intro address outside
    rw [mem]
    refine storeAll_outside 37 (fun word inWords => ?_) outside
    have slot := List.mem_map_of_mem (f := Prod.fst) inWords
    rw [savedWords_slots] at slot
    revert slot
    generalize word.1 = k
    revert k
    decide
  · intro mmu' g base' pointer context' kernel' user'
    obtain ⟨g', ran', regs, status, epc, sscratch, satp', mem'⟩ :=
      restore_runs context' kernel' user'
    refine ⟨g', ran', regs, status, epc, sscratch.trans pointer, satp', mem', fun same => ?_⟩
    rw [same, saved] at regs status epc
    refine ⟨fun n notZero notTp => ?_, status, epc⟩
    rw [regs n notZero notTp, Hart.get, if_neg notZero]
    simp only [notZero, notTp, or_self, if_false]

/-- A hart whose registers count from a number; its trap context is in page 2. -/
def numberedHart (first : UInt64) (mem : Nat → UInt8) : Hart where
  x r := first + UInt64.ofNat r.val
  csr
    | .sstatus => first + 32
    | .sepc => first + 33
    | .sscratch => 8192
    | .satp => first + 34
  mem := mem
  jumped := none

/-- A trap and the return from it, in address spaces where every page is its own frame. The kernel
has used all registers in between. -/
theorem trap_preserves_numbered : ∃ h' g',
    run (fun _ page => some page) ⟨5, 5⟩ alltraps (numberedHart 1000 fun a => UInt8.ofNat a) =
      some h' ∧
    run (fun _ page => some page) ⟨5, 5⟩ restoreContext
      ((numberedHart 5000 h'.mem).withArgs 8192 1034) = some g' ∧
    (∀ n, n ≠ 0 → n ≠ 4 → g'.get n = 1000 + UInt64.ofNat n.val) ∧
    g'.csr .sstatus = 1032 ∧ g'.csr .sepc = 1033 ∧ g'.csr .satp = 1034 := by
  obtain ⟨h', trapped, -, -, -, -, -, returns⟩ := @trap_preserves (fun _ page => some page)
    ⟨5, 5⟩ (numberedHart 1000 fun a => UInt8.ofNat a) 8192 ⟨⟨2, rfl, rfl⟩, rfl, by decide⟩ rfl rfl
  obtain ⟨g', returned, -, -, -, -, satp, -, same⟩ := returns (fun _ page => some page)
    ((numberedHart 5000 h'.mem).withArgs 8192 1034) 8192 (Hart.withArgs_a0 ..)
    (by rw [Hart.withArgs_a0, Hart.withArgs_a1]; exact ⟨⟨2, rfl, rfl⟩, rfl, by decide⟩) rfl rfl
  obtain ⟨registers, status, epc⟩ := same rfl
  refine ⟨h', g', trapped, returned, ?_, status, epc, satp.trans (Hart.withArgs_a1 ..)⟩
  intro n notZero notTp
  rw [registers n notZero notTp, Hart.get, if_neg notZero]
  rfl

end CoreFromDust.Os
