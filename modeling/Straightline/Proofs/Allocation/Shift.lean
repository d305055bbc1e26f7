import Straightline.Proofs.Allocation.Audit
import Straightline.Proofs.Allocation.SideBySide

/-! Two allocations that differ in the address of the first spill slot. They take the same steps and
insert the same code, but for the addresses in it, unless the higher of the two runs out of them. -/
namespace Straightline

def Instr.addresses (address : Option PhysicalReg) (i : Instr) : Bool :=
  i.inserted && i.opcode == .loadI && address.isSome && (i.operand .third).physical == address

def Instr.shift (address : Option PhysicalReg) (d : Word) (i : Instr) : Instr :=
  if i.addresses address then {i with constant := i.constant + d} else i

theorem Instr.shiftGiven {address : Option PhysicalReg} {d : Word} {i : Instr}
    (given : i.inserted = false) : i.shift address d = i := by
  simp [shift, addresses, given]

namespace Allocation

structure Shifted (plan : Plan) (d : Word) (hs : List Handle) (b c : Block) : Prop where
  sound : b.Sound
  given : ∀ h ∈ hs, ∃ i, (h, i) ∈ b.entries ∧ i.inserted = false
  spells : c.Spells (b.entries.map fun e => (e.1, e.2.shift plan.address d))
  size : c.links.size = b.links.size

def shifting (plan : Plan) (d : Word) (hs : List Handle) : Coupling where
  plan
  shift := d
  regs p := p.number < plan.usable
  handles h h' := h' = h ∧ h ∈ hs
  sites σ σ' := σ' = σ ∧ σ.handle ∈ hs
  slots h h' _ := h' = h ∧ h ∈ hs
  blocks b c := Shifted plan d hs b c
  logs _ _ := True
  stops e f := f = e

section
variable {plan : Plan} {d : Word} {hs : List Handle} {b c : Block} {h : Handle} {line : Nat} {i j : Instr}

theorem shiftedAt (shifted : Shifted plan d hs b c) (inside : h ∈ hs) :
    ∃ pre i post, b.entries = pre ++ (h, i) :: post ∧ i.inserted = false ∧
      b.Spells (pre ++ (h, i) :: post) ∧
      c.Spells ((pre.map fun e => (e.1, e.2.shift plan.address d)) ++
        (h, i) :: post.map fun e => (e.1, e.2.shift plan.address d)) := by
  obtain ⟨i, there, plain⟩ := shifted.given h inside
  obtain ⟨pre, post, split⟩ := List.append_of_mem there
  have spells := shifted.spells
  rw [split, List.map_append, List.map_cons, Instr.shiftGiven plain] at spells
  exact ⟨pre, i, post, split, plain, split ▸ Chain.soundSpells shifted.sound, spells⟩

theorem codeShifted (sound : plan.Sound) (code : (shifting plan d hs).Code line line i j) :
    j = i.shift plan.address d := by
  cases code with
  | @address p w address =>
    have known : plan.address = some p := address
    simp [Instr.shift, Instr.addresses, Instr.insertedLoadI, Instr.operand, known, shifting]
  | @remade p w usable =>
    have apart : plan.address ≠ some p := fun same => Nat.ne_of_lt usable (sound.address p same)
    simp [Instr.shift, Instr.addresses, Instr.insertedLoadI, Instr.operand, apart.symm]
  | store p a => rfl
  | load a p => rfl

theorem insertedSize {handle : Option Handle} (made : b.insertBefore handle j = .ok c) :
    c.links.size = b.links.size + 1 := by
  obtain ⟨h, l, -, -, rfl⟩ := Chain.insertedSplice made
  simp [Chain.splice, Chain.setBeforeSize, Chain.setAfterSize]

theorem shiftedInsert (shifted : Shifted plan d hs b c) (inside : h ∈ hs) (j : Instr) :
    ∃ b' c' : Block, b.insertBefore (some h) j = .ok b' ∧
      c.insertBefore (some h) (j.shift plan.address d) = .ok c' ∧ Shifted plan d hs b' c' := by
  obtain ⟨pre, i, post, split, plain, spells, spells'⟩ := shiftedAt shifted inside
  obtain ⟨b', made, laid⟩ := Chain.insertSpells spells j
  obtain ⟨c', made', laid'⟩ := Chain.insertSpells spells' (j.shift plan.address d)
  have fresh : c.fresh = b.fresh := shifted.size
  refine ⟨b', c', made, made', Chain.spellsSound laid, fun g listed => ?_, ?_, ?_⟩
  · obtain ⟨k, old, plain⟩ := shifted.given g listed
    refine ⟨k, ?_, plain⟩
    rw [Chain.spellsEntries laid]
    simp only [split, List.mem_append, List.mem_cons] at old ⊢
    tauto
  · rw [Chain.spellsEntries laid, List.map_append, List.map_cons, List.map_cons, Instr.shiftGiven plain]
    rwa [fresh] at laid'
  · rw [insertedSize made, insertedSize made', shifted.size]

theorem shiftedAssign (shifted : Shifted plan d hs b c) (inside : h ∈ hs) (slot : Slot)
    (p : PhysicalReg) : Shifted plan d hs (b.modify h (Instr.setPhysical · slot p))
      (c.modify h (Instr.setPhysical · slot p)) := by
  have keeps : ∀ i : Instr, i.inserted = false → (i.setPhysical slot p).inserted = false := by
    intro i plain
    cases slot <;> exact plain
  obtain ⟨pre, i, post, split, plain, spells, spells'⟩ := shiftedAt shifted inside
  have laid := Chain.modifySpells (Instr.setPhysical · slot p) spells
  have laid' := Chain.modifySpells (Instr.setPhysical · slot p) spells'
  refine ⟨Chain.spellsSound laid, fun g listed => ?_, ?_, ?_⟩
  · obtain ⟨k, old, plain'⟩ := shifted.given g listed
    rw [Chain.spellsEntries laid]
    rw [split, List.mem_append, List.mem_cons] at old
    rcases old with before | same | after
    · exact ⟨k, List.mem_append_left _ before, plain'⟩
    · obtain ⟨rfl, rfl⟩ := Prod.mk.inj same
      exact ⟨_, List.mem_append_right _ List.mem_cons_self, keeps k plain'⟩
    · exact ⟨k, List.mem_append_right _ (List.mem_cons_of_mem _ after), plain'⟩
  · rw [Chain.spellsEntries laid, List.map_append, List.map_cons, Instr.shiftGiven (keeps i plain)]
    exact laid'
  · simp [Chain.modify, shifted.size]

theorem shiftingLaws (sound : plan.Sound) (d : Word) (hs : List Handle) :
    (shifting plan d hs).Chooses where
  regs _ below := below
  get := by
    rintro _ h b c ⟨rfl, inside⟩ shifted
    obtain ⟨pre, i, post, -, plain, spells, spells'⟩ := shiftedAt shifted inside
    rw [Chain.getSpells spells, Chain.getSpells spells']
    exact .ok ⟨⟨rfl, fun _ _ => rfl, fun _ _ => rfl⟩, fun _ => rfl, ⟨rfl, inside⟩,
      fun _ _ => ⟨rfl, inside⟩⟩
  insert := by
    rintro _ σ i j b c ⟨rfl, inside⟩ code shifted
    obtain ⟨b', c', made, made', shifted'⟩ := shiftedInsert shifted inside i
    rw [codeShifted sound code, made, made']
    exact .ok shifted'
  assign := by
    rintro _ h slot b c p ⟨rfl, inside⟩ shifted
    exact shiftedAssign shifted inside slot p
  valid shifted := by
    rw [Chain.spellsValidate shifted.spells, Chain.spellsValidate (Chain.soundSpells shifted.sound)]
  tells _ _ _ := trivial
  fault _ := rfl
  spill _ same := by rw [same.1]; rfl
  choice _ := trivial
  crowded same := by rw [same.1]; rfl

end
end Allocation
end Straightline
