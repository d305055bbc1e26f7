import Straightline.Proofs.Allocation.Frame

/-! Allocating two blocks that differ in names only. Blocks that agree, instruction by instruction, in
the operation, the constant and the ranges are allocated alike whatever their lines, handles and source
registers: each step leaves the same tables and a pair of blocks that agree again, or both stop for the
same reason. -/
namespace Straightline

/-- The two instructions are allocated alike. Where physical registers are `stale`, the first may have
some from before that the second has not. -/
structure Instr.Kin (stale : Prop) (i j : Instr) : Prop extends i.SameRanges j where
  inserted : j.inserted = i.inserted
  constant : i.opcode.hasConstant = true → j.constant = i.constant
  physical : ∀ slot ∈ i.opcode.slots, (j.operand slot).physical = (i.operand slot).physical ∨
    stale ∧ j.inserted = false ∧ (j.operand slot).physical = none

namespace Instr

variable {stale : Prop} {i j : Instr}

theorem setPhysicalOperand (i : Instr) (slot t : Slot) (p : PhysicalReg) :
    (i.setPhysical slot p).operand t =
      if t = slot then {i.operand t with physical := some p} else i.operand t := by
  rw [setPhysical, operandSet]
  split
  · rename_i same
    rw [same]
  · rfl

theorem kinSet (kin : i.Kin stale j) (slot : Slot) (p : PhysicalReg) :
    (i.setPhysical slot p).Kin stale (j.setPhysical slot p) := by
  have opcode : ∀ k : Instr, (k.setPhysical slot p).opcode = k.opcode := by
    cases slot <;> exact fun _ => rfl
  have inserted : ∀ k : Instr, (k.setPhysical slot p).inserted = k.inserted := by
    cases slot <;> exact fun _ => rfl
  have constant : ∀ k : Instr, (k.setPhysical slot p).constant = k.constant := by
    cases slot <;> exact fun _ => rfl
  refine ⟨⟨by rw [opcode, opcode, kin.opcode], ?_, ?_⟩, by rw [inserted, inserted, kin.inserted],
    ?_, ?_⟩
  · intro t used
    rw [opcode] at used
    rw [setPhysicalOperand, setPhysicalOperand]
    split <;> exact kin.virtual t used
  · intro t used
    rw [opcode] at used
    rw [setPhysicalOperand, setPhysicalOperand]
    split <;> exact kin.nextUse t used
  · rw [opcode, constant, constant]
    exact kin.constant
  · intro t used
    rw [opcode] at used
    rw [setPhysicalOperand, setPhysicalOperand, inserted]
    split
    · exact .inl rfl
    · exact kin.physical t used

theorem kinLine (i : Instr) (line : Nat) : i.Kin stale {i with line} :=
  ⟨⟨rfl, fun slot _ => by cases slot <;> rfl, fun slot _ => by cases slot <;> rfl⟩, rfl, fun _ => rfl,
    fun slot _ => .inl (by cases slot <;> rfl)⟩

end Instr

def Block.Twins (stale : Prop) (pairs : List (Handle × Handle)) (b d : Block) : Prop :=
  ∃ ts : List ((Handle × Instr) × (Handle × Instr)),
    b.Spells (ts.map Prod.fst) ∧ d.Spells (ts.map Prod.snd) ∧ (∀ t ∈ ts, t.1.2.Kin stale t.2.2) ∧
      ∀ e ∈ pairs, ∃ t ∈ ts, (t.1.1, t.2.1) = e

namespace Block

variable {stale : Prop} {pairs : List (Handle × Handle)} {b d : Block} {h h' : Handle} {i j : Instr}

theorem twinsAt (twins : b.Twins stale pairs d) (paired : (h, h') ∈ pairs) :
    ∃ (pre post : List ((Handle × Instr) × (Handle × Instr))) (i j : Instr), i.Kin stale j ∧
      b.Spells (pre.map Prod.fst ++ (h, i) :: post.map Prod.fst) ∧
      d.Spells (pre.map Prod.snd ++ (h', j) :: post.map Prod.snd) ∧
      (∀ t ∈ pre ++ post, t.1.2.Kin stale t.2.2) ∧
      ∀ e ∈ pairs, e = (h, h') ∨ ∃ t ∈ pre ++ post, (t.1.1, t.2.1) = e := by
  obtain ⟨ts, first, second, kin, found⟩ := twins
  obtain ⟨⟨⟨_, i⟩, ⟨_, j⟩⟩, inside, same⟩ := found (h, h') paired
  cases same
  obtain ⟨pre, post, rfl⟩ := List.append_of_mem inside
  rw [List.map_append, List.map_cons] at first second
  rw [List.forall_mem_append, List.forall_mem_cons] at kin
  refine ⟨pre, post, i, j, kin.2.1, first, second,
    List.forall_mem_append.mpr ⟨kin.1, kin.2.2⟩, fun e member => ?_⟩
  obtain ⟨t, listed, same⟩ := found e member
  rcases List.mem_append.mp listed with front | back
  · exact .inr ⟨t, List.mem_append_left _ front, same⟩
  · rcases List.mem_cons.mp back with rfl | back
    · exact .inl same.symm
    · exact .inr ⟨t, List.mem_append_right _ back, same⟩

theorem twinsGet (twins : b.Twins stale pairs d) (paired : (h, h') ∈ pairs) :
    ∃ i j, b.get (some h) = .ok i ∧ d.get (some h') = .ok j ∧ i.Kin stale j := by
  obtain ⟨pre, post, i, j, kin, first, second, -⟩ := twinsAt twins paired
  exact ⟨i, j, Chain.getSpells first, Chain.getSpells second, kin⟩

theorem twinsWith {pre post : List ((Handle × Instr) × (Handle × Instr))}
    (new : List ((Handle × Instr) × (Handle × Instr)))
    (others : ∀ t ∈ pre ++ post, t.1.2.Kin stale t.2.2)
    (found : ∀ e ∈ pairs, e = (h, h') ∨ ∃ t ∈ pre ++ post, (t.1.1, t.2.1) = e)
    (added : ∀ t ∈ new, t.1.2.Kin stale t.2.2) (here : i.Kin stale j)
    (first : b.Spells (pre.map Prod.fst ++ (new.map Prod.fst ++ (h, i) :: post.map Prod.fst)))
    (second : d.Spells (pre.map Prod.snd ++ (new.map Prod.snd ++ (h', j) :: post.map Prod.snd))) :
    b.Twins stale pairs d := by
  refine ⟨pre ++ (new ++ ((h, i), (h', j)) :: post), by simpa using first, by simpa using second,
    ?_, fun e member => ?_⟩
  · rw [List.forall_mem_append] at others
    simp only [List.forall_mem_append, List.forall_mem_cons]
    exact ⟨others.1, added, here, others.2⟩
  · rcases found e member with rfl | ⟨t, inside, same⟩
    · exact ⟨((h, i), (h', j)), by simp, rfl⟩
    · refine ⟨t, ?_, same⟩
      rcases List.mem_append.mp inside with front | back
      · exact List.mem_append_left _ front
      · simp [back]

theorem twinsModify (twins : b.Twins stale pairs d) (paired : (h, h') ∈ pairs) (slot : Slot)
    (p : PhysicalReg) : Twins stale pairs (b.modify h (Instr.setPhysical · slot p))
      (d.modify h' (Instr.setPhysical · slot p)) := by
  obtain ⟨pre, post, i, j, kin, first, second, others, found⟩ := twinsAt twins paired
  have spells := Chain.modifySpells (Instr.setPhysical · slot p) first
  have spells' := Chain.modifySpells (Instr.setPhysical · slot p) second
  exact twinsWith [] others found (List.forall_mem_nil _) (Instr.kinSet kin slot p) spells spells'

theorem twinsInsert (twins : b.Twins stale pairs d) (paired : (h, h') ∈ pairs)
    (kin : i.Kin stale j) : ∃ b' d' : Block, b.insertBefore (some h) i = .ok b' ∧
      d.insertBefore (some h') j = .ok d' ∧ b'.Twins stale pairs d' := by
  obtain ⟨pre, post, x, y, old, first, second, others, found⟩ := twinsAt twins paired
  obtain ⟨b', made, spells⟩ := Chain.insertSpells first i
  obtain ⟨d', made', spells'⟩ := Chain.insertSpells second j
  exact ⟨b', d', made, made', twinsWith [((b.fresh, i), (d.fresh, j))] others found
    (List.forall_mem_singleton.mpr kin) old spells spells'⟩

theorem twinsValid (twins : b.Twins stale pairs d) : b.validate = .ok () ∧ d.validate = .ok () := by
  obtain ⟨ts, first, second, -⟩ := twins
  exact ⟨Chain.spellsValidate first, Chain.spellsValidate second⟩

end Block

namespace Allocation

def Stop.unplaced : Stop → Stop
  | error (.tooManyLive _ _) => error (.tooManyLive 0 0)
  | error (.unexpectedSpill _ v) => error (.unexpectedSpill 0 v)
  | stop => stop

def twinned (plan : Plan) (stale : Prop) (pairs : List (Handle × Handle)) : Coupling where
  plan
  shift := 0
  regs _ := True
  handles h h' := (h, h') ∈ pairs
  sites σ σ' := (σ.handle, σ'.handle) ∈ pairs
  slots h h' _ := (h, h') ∈ pairs
  blocks b d := b.Twins stale pairs d
  logs _ _ := True
  stops e f := f.unplaced = e.unplaced

theorem twinnedLaws (plan : Plan) (stale : Prop) (pairs : List (Handle × Handle)) :
    (twinned plan stale pairs).Chooses where
  regs _ _ := trivial
  get paired twins := by
    obtain ⟨i, j, found, found', kin⟩ := Block.twinsGet twins paired
    rw [found, found']
    exact .ok ⟨kin.toSameRanges, kin.constant, paired, fun _ _ => paired⟩
  insert {_ _ i j _ _} paired code twins := by
    have kin : i.Kin stale j := by
      rw [codeLevel rfl code]
      exact Instr.kinLine i _
    obtain ⟨b, d, made, made', twins⟩ := Block.twinsInsert twins paired kin
    rw [made, made']
    exact .ok twins
  assign p paired twins := Block.twinsModify twins paired _ p
  valid twins := by
    obtain ⟨valid, valid'⟩ := Block.twinsValid twins
    rw [valid, valid']
  tells _ _ _ := trivial
  fault _ := rfl
  spill _ _ := rfl
  choice _ := trivial
  crowded _ := rfl

theorem twinsAllocate {stale : Prop} {b d : Block} {pairs : List (Handle × Handle)}
    (twins : b.Twins stale pairs d) (handles : b.handles = pairs.map Prod.fst)
    (handles' : d.handles = pairs.map Prod.snd) (summary : Renaming.Summary) (k : Nat)
    (options : Options) :
    (d.allocateRenamed summary k options).result.mapError Stop.unplaced =
        (b.allocateRenamed summary k options).result.mapError Stop.unplaced ∧
      (b.allocateRenamed summary k options).block.Twins stale pairs
        (d.allocateRenamed summary k options).block := by
  have sounds : b.Sound ∧ d.Sound := by
    obtain ⟨ts, first, second, -⟩ := twins
    exact ⟨Chain.spellsSound first, Chain.spellsSound second⟩
  cases made : Plan.make k summary options with
  | error stop => simpa only [Block.allocateRenamed, made] using ⟨trivial, twins⟩
  | ok plan =>
    cases room : reserve summary.numVirtual 1 with
    | error fault => simpa only [Block.allocateRenamed, made, room] using ⟨trivial, twins⟩
    | ok _ =>
      have agrees := agreesEach (twinnedLaws plan stale pairs) fun e inside => inside
      rw [← handles, ← handles'] at agrees
      have start : (twinned plan stale pairs).blocks (State.initial b plan summary.numVirtual).block d :=
        twins
      have initial : {State.initial b plan summary.numVirtual with block := d, log := []} =
        State.initial d plan summary.numVirtual := rfl
      have both := agreesLevel rfl (fun _ => trivial) agrees start [] trivial
      rw [initial] at both
      rcases both with ⟨_, s, d', log, ran, ran', ended, -⟩ | ⟨e, f, s, d', log, ran, ran', same, ended, -⟩
      · rw [allocatedOk sounds.1 made room ran, allocatedOk sounds.2 made room ran']
        exact ⟨rfl, ended⟩
      · rw [allocatedError sounds.1 made room ran, allocatedError sounds.2 made room ran']
        exact ⟨congrArg Except.error same, ended⟩

end Allocation
end Straightline
