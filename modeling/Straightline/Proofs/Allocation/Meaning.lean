import Straightline.Proofs.Allocation.Accepted
import Straightline.Proofs.Renaming.Meaning

/-! Allocation keeps the meaning of a block. The source block does on source registers what the
renamed block does on virtual ones; what was given of the allocated block does the same, since it
differs in physical registers only; and the checker accepts the allocated block, so the whole of it
does that on physical registers. -/
namespace Straightline

theorem Machine.housesAlike {i j : Instr} (houses : i.Houses j) (x : Machine .virtual) :
    Machine.Alike x i x j :=
  ⟨houses.opcode, houses.constant, fun slot _ => by simp only [read, Operand.reg, houses.virtual]⟩

theorem Machine.housesStep (arith : Arithmetic) {i j : Instr} (houses : i.Houses j)
    (x : Machine .virtual) : x.step arith j = x.step arith i := by
  have alike := housesAlike houses x
  have memory := memoryAlike arith (fun _ => False) alike fun _ _ => rfl
  have outputs := outputsAlike arith alike (fun _ _ => rfl) rfl
  have registers : (x.step arith j).registers = (x.step arith i).registers := by
    simp only [step, Instr.housesWritten houses]
    cases writes : i.opcode.writes with
    | none => rw [Instr.writtenRegNone writes]
    | some slot => rw [resultAlike arith alike (by simp [writes]) fun _ _ => rfl]
  generalize x.step arith j = y at memory outputs registers ⊢
  generalize x.step arith i = z at memory outputs registers ⊢
  cases y
  cases z
  simp only [mk.injEq]
  exact ⟨registers, funext fun a => memory a id, outputs⟩

theorem housedRun (arith : Arithmetic) {is js : List Instr}
    (housed : List.Forall₂ Instr.Houses is js) (x : Machine .virtual) :
    x.run arith js = x.run arith is ∧ x.accesses arith js = x.accesses arith is := by
  induction housed generalizing x with
  | nil => exact ⟨rfl, rfl⟩
  | cons houses _ ih =>
    rw [Machine.runCons, Machine.runCons, Machine.accesses, Machine.accesses,
      Machine.housesStep arith houses, Machine.accessedAlike (Machine.housesAlike houses x)]
    exact ⟨(ih _).1, by rw [(ih _).2]⟩

theorem housedReads {known : List (Option VirtualReg)} {is js : List Instr}
    (housed : List.Forall₂ Instr.Houses is js) (reads : ReadsKnown .virtual known is) :
    ReadsKnown .virtual known js := by
  induction housed generalizing known with
  | nil => trivial
  | @cons i j is js houses _ ih =>
    obtain ⟨first, rest⟩ := reads
    refine ⟨fun r inside => first r ?_, ?_⟩
    · simpa only [Instr.memReadRegs, Operand.reg, houses.opcode, houses.virtual] using inside
    · rw [Instr.housesWritten houses]
      exact ih rest

namespace Allocation
open Check (Frame)

theorem acceptedRuns {d : Block} {is : List Instr} {usable : Nat} {address : Option PhysicalReg}
    {c : Check.State} (housed : List.Forall₂ Instr.Houses is d.given)
    (single : (writtenRegs .virtual is).Nodup) (reads : ReadsKnown .virtual [] is)
    (accepts : (Frame.ofBlock d usable address).Accepts {} d.entries c) (arith : Arithmetic)
    (virtual : Option VirtualReg → Word) (physical : Option PhysicalReg → Word)
    (memory : Word → Word)
    (apart : ∀ a ∈ (Machine.start virtual memory).accesses arith is, a ∉ c.memory) :
    ((Machine.start physical memory).run arith d.values).outputs =
        ((Machine.start virtual memory).run arith is).outputs ∧
      ∀ a, a ∉ c.memory → ((Machine.start physical memory).run arith d.values).memory a =
        ((Machine.start virtual memory).run arith is).memory a := by
  have single' : (writtenRegs .virtual d.given).Nodup := housedWritten housed ▸ single
  obtain ⟨run, accesses⟩ := housedRun arith housed (.start virtual memory)
  obtain ⟨agrees, -⟩ := Check.agreesRun arith accepts
    (Check.agreesStart (Frame.ofBlock d usable address) virtual physical memory) single'
    (housedReads housed reads) (Frame.ofBlockDescribes usable address single') (fun _ inside => inside)
    fun a touched => ⟨by simp, fun _ => apart a (accesses ▸ touched)⟩
  rw [← run]
  exact ⟨agrees.outputs, agrees.memory⟩

theorem allocationKeepsMeaning (b : Block) (sound : b.Sound)
    (given : ∀ i ∈ b.values, i.inserted = false) (short : 11 * b.size < 4294967295)
    (reads : ReadsKnown .source [] b.values) (k : Nat) (options : Options) (output : Output)
    (ok : (b.allocate k options).2.result = .ok output) (arith : Arithmetic)
    (source : Option SourceReg → Word) (physical : Option PhysicalReg → Word) (memory : Word → Word)
    (apart : ∀ a ∈ (Machine.start source memory).accesses arith b.values, ∀ j < output.slots,
      a.toNat ≠ options.base.toNat + 4 * j) :
    ((Machine.start physical memory).run arith (b.allocate k options).2.block.values).outputs =
        ((Machine.start source memory).run arith b.values).outputs ∧
      ∀ a : Word, (∀ j < output.slots, a.toNat ≠ options.base.toNat + 4 * j) →
        ((Machine.start physical memory).run arith (b.allocate k options).2.block.values).memory a =
          ((Machine.start source memory).run arith b.values).memory a := by
  obtain ⟨steps, renamed, renames, spells⟩ := b.renameOk sound given (by omega)
  have given' : ∀ e ∈ b.entries, e.2.inserted = false :=
    fun e inside => given e.2 (List.mem_map_of_mem inside)
  have allocated : (b.allocate k options).2 =
      b.rename.block.allocateRenamed (Renaming.envAbove steps).summary k options := by
    simp only [Block.allocate, renamed]
  rw [allocated] at ok ⊢
  obtain ⟨housed, c, accepts, slots⟩ := allocatedAccepts spells renames given' (Nat.le_refl _) ok
  -- No range is open at the start, so the registers may hold anything there.
  have closed : ∀ v, ¬ (Renaming.envAbove steps).Live v := by
    rintro v ⟨r, range⟩
    exact List.not_mem_nil (Renaming.openKnown renames reads range)
  have follows : Renaming.Follows (Renaming.envAbove steps) (.start source memory)
      (.start (fun _ => 0) memory) :=
    ⟨fun r v range => absurd ⟨r, range⟩ (closed v), fun _ => rfl, rfl⟩
  obtain ⟨after, accesses⟩ := Renaming.followsRun arith renames follows
  have outside : ∀ a : Word, (∀ j < output.slots, a.toNat ≠ options.base.toNat + 4 * j) →
      a ∉ c.memory := by
    intro a away inside
    obtain ⟨j, less, same⟩ := slots a inside
    exact away j less same
  obtain ⟨outputs, memories⟩ := acceptedRuns housed (Renaming.renamesSingle renames)
    (Renaming.renamedReads renames fun v live => absurd live (closed v)) accepts arith (fun _ => 0)
    physical memory fun a touched => outside a (apart a (accesses ▸ touched))
  refine ⟨outputs.trans after.outputs, fun a away => ?_⟩
  exact (memories a (outside a away)).trans (after.memory a)

theorem spilledSumKeepsMeaning :
    (spilledSum.allocate 3 {}).2.result = .ok ⟨2, some ⟨2⟩, 2, ⟨3, 2, 2, 1, 9⟩⟩ ∧
      ((Machine.start (fun _ : Option PhysicalReg => 5) id).run (fun _ x y => x + y)
          (spilledSum.allocate 3 {}).2.block.values).outputs =
        ((Machine.start (fun _ : Option SourceReg => 6) id).run (fun _ x y => x + y)
          spilledSum.values).outputs ∧
      ((Machine.start (fun _ : Option PhysicalReg => 5) id).run (fun _ x y => x + y)
          (spilledSum.allocate 3 {}).2.block.values).memory 1024 =
        ((Machine.start (fun _ : Option SourceReg => 6) id).run (fun _ x y => x + y)
          spilledSum.values).memory 1024 := by
  have ok : (spilledSum.allocate 3 {}).2.result = .ok ⟨2, some ⟨2⟩, 2, ⟨3, 2, 2, 1, 9⟩⟩ := by
    decide +kernel
  have touched : (Machine.start (fun _ : Option SourceReg => 6) id).accesses (fun _ x y => x + y)
      spilledSum.values = [1024, 1024, 1024, 1024, 1024] := by decide +kernel
  have low (j : Nat) : (1024 : Word).toNat ≠ ({} : Options).base.toNat + 4 * j := by
    have numbers : (1024 : Word).toNat = 1024 ∧ ({} : Options).base.toNat = 32768 := ⟨rfl, rfl⟩
    rw [numbers.1, numbers.2]
    omega
  have kept := allocationKeepsMeaning spilledSum (Chain.ofListSound _) (by decide +kernel)
    (by decide +kernel) (by decide +kernel) 3 {} _ ok (fun _ x y => x + y) (fun _ => 6) (fun _ => 5) id
    fun a inside j _ => by
      have same : a = 1024 := by simpa [touched] using inside
      rw [same]
      exact low j
  exact ⟨ok, kept.1, kept.2 1024 fun j _ => low j⟩

end Allocation
end Straightline
