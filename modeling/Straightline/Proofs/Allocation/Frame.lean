import Straightline.Proofs.Allocation.SideBySide

/-! What allocation may do to a block. Whether it ends or stops, the work on an instruction changes
the block in two ways only: code is inserted in front of the instruction, with its line, and the slots
it reads or writes are given physical registers. So what these two changes keep, allocation keeps,
wherever it got to. In particular they keep the code behind the instruction, and the links that are
followed while the block changes lead through the instructions that it had at the start. -/
namespace Straightline.Allocation

/-- `P` outlives the changes that allocation may make at the instruction `i`. -/
structure Admits (P : Block → Prop) (h : Handle) (i : Instr) : Prop where
  insert : ∀ b d j, P b → j.inserted = true → j.line = i.line →
    b.insertBefore (some h) j = .ok d → P d
  assign : ∀ b slot p, P b → slot ∈ i.opcode.slots → P (b.modify h (Instr.setPhysical · slot p))

def keeping (plan : Plan) (P : Block → Prop) : Coupling where
  plan
  shift := 0
  regs _ := True
  handles h h' := h' = h ∧ ∀ b i, P b → b.get (some h) = .ok i → Admits P h i
  sites σ σ' := σ' = σ ∧ ∀ b d j, P b → j.inserted = true → j.line = σ.line →
    b.insertBefore (some σ.handle) j = .ok d → P d
  slots h h' slot := h' = h ∧ ∀ b p, P b → P (b.modify h (Instr.setPhysical · slot p))
  blocks b d := d = b ∧ P b
  logs _ _ := True
  stops e f := f = e

section
variable {P : Block → Prop} {plan : Plan} {h : Handle} {s : State} {b : Block}
  {rest : List (Handle × Instr)}

theorem keepingLaws (plan : Plan) (P : Block → Prop) : (keeping plan P).Chooses where
  regs _ _ := trivial
  get := by
    rintro _ h _ b ⟨rfl, admits⟩ ⟨rfl, holds⟩
    cases found : b.get (some h) with
    | error f => exact .error f
    | ok i =>
      have admits := admits b i holds found
      exact .ok ⟨⟨rfl, fun _ _ => rfl, fun _ _ => rfl⟩, fun _ => rfl, ⟨rfl, admits.insert⟩,
        fun slot used => ⟨rfl, fun b p holds => admits.assign b slot p holds used⟩⟩
  insert := by
    rintro _ σ i j _ b ⟨rfl, inserts⟩ code ⟨rfl, holds⟩
    obtain ⟨new, line, -⟩ := codeInserted code
    obtain rfl : j = i := by rw [codeLevel rfl code, ← line]
    cases made : b.insertBefore (some σ.handle) j with
    | error f => exact .error f
    | ok d => exact .ok ⟨rfl, inserts b d j holds new line made⟩
  assign := by
    rintro _ h slot _ b p ⟨rfl, assigns⟩ ⟨rfl, holds⟩
    exact ⟨rfl, assigns b p holds⟩
  valid := by
    rintro _ b ⟨rfl, -⟩
    rfl
  tells _ _ _ := trivial
  fault _ := rfl
  spill _ same := by rw [same.1]; rfl
  choice _ := trivial
  crowded same := by rw [same.1]; rfl

theorem keepsWork {α : Type} {post : α → Prop} {work : Work α}
    (agrees : Agrees (keeping plan P) post work work) (holds : P s.block) : P (work.leaves s).block := by
  have start : (keeping plan P).blocks s.block s.block := ⟨rfl, holds⟩
  rcases agreesLevel rfl (fun _ => trivial) agrees start s.log trivial with
    ⟨a, t, d, log, ran, -, ⟨-, holds⟩, -⟩ | ⟨e, f, t, d, log, ran, -, -, ⟨-, holds⟩, -⟩
  · exact leavesOk ran ▸ holds
  · exact leavesError ran ▸ holds

def Heads (h : Handle) (rest : List (Handle × Instr)) (b : Block) : Prop :=
  ∃ front i, b.Spells (front ++ (h, i) :: rest)

theorem headsAdmits (h : Handle) (i : Instr) (rest : List (Handle × Instr)) :
    Admits (Heads h rest) h i := by
  refine ⟨fun b d j heads _ _ made => ?_, fun b slot p heads _ => ?_⟩
  · obtain ⟨front, k, spells⟩ := heads
    obtain ⟨d', made', laid⟩ := Chain.insertSpells spells j
    obtain rfl := Except.ok.inj (made.symm.trans made')
    refine ⟨front ++ [(b.fresh, j)], k, ?_⟩
    rwa [List.append_assoc]
  · obtain ⟨front, k, spells⟩ := heads
    exact ⟨front, _, Chain.modifySpells _ spells⟩

/-- The next link is read before code is inserted, and leads to what followed the instruction then. -/
theorem fromEach {n : Nat} (front : List (Handle × Instr)) (spells : s.block.Spells (front ++ rest))
    (enough : rest.length ≤ n) :
    Work.allocateFrom plan n (rest.map Prod.fst).head? s =
      (rest.map Prod.fst).forM (Work.allocateInstr plan) s := by
  induction rest generalizing front n s with
  | nil => cases n <;> rfl
  | cons e rest ih =>
    obtain ⟨h, i⟩ := e
    obtain ⟨n, rfl⟩ : ∃ m, n = m + 1 := ⟨n - 1, by rw [List.length_cons] at enough; omega⟩
    have linked := spells.linked
    rw [List.map_append, List.map_cons] at linked
    obtain ⟨l, link, -, after⟩ := Chain.linkNeighbours linked
    have next : s.block.next (some h) = .ok (rest.map Prod.fst).head? := by
      rw [Chain.next, link, Except.map, after]
    have met : Work.allocateFrom plan (n + 1) (some h) s = (Work.allocateInstr plan h >>= fun _ =>
        Work.allocateFrom plan n (rest.map Prod.fst).head?) s := by
      rw [Work.allocateFrom, workGet, next]
      rfl
    have kept : Heads h rest ((Work.allocateInstr plan h).leaves s).block :=
      keepsWork (agreesInstr (keepingLaws plan _) ⟨rfl, fun _ i _ _ => headsAdmits h i rest⟩)
        ⟨front, i, spells⟩
    rw [List.map_cons, List.head?_cons, List.forM_eq_forM, List.forM_cons]
    cases ran : Work.allocateInstr plan h s with
    | error e t =>
      rw [workError ran]
      exact met.trans (workError ran)
    | ok a t =>
      rw [leavesOk ran] at kept
      obtain ⟨front', j, spells'⟩ := kept
      rw [List.append_cons] at spells'
      rw [workOk ran]
      refine met.trans ((workOk ran).trans (ih _ spells' ?_))
      rw [List.length_cons] at enough
      omega

theorem allEach (sound : s.block.Sound) :
    Work.allocateAll plan s = Work.allocateEach plan s.block.handles s := by
  have spells := Chain.soundSpells sound
  have linked := spells.linked
  have enough : s.block.entries.length ≤ s.block.links.size := by
    have bound := Chain.nodupLength linked.nodup (Chain.pathBound linked.path)
    rwa [List.length_map] at bound
  have walk : Work.allocateFrom plan _ (s.block.entries.map Prod.fst).head? s = _ :=
    fromEach [] spells enough
  rw [← Chain.spellsHandles spells, ← (Chain.linkedEnds sound).1] at walk
  unfold Work.allocateAll Work.allocateEach
  rw [workGet]
  simp only [bind, EStateM.bind, walk]

section
variable {summary : Renaming.Summary} {k : Nat} {options : Options} (sound : b.Sound)
include sound

section
variable (made : Plan.make k summary options = .ok plan) (room : reserve summary.numVirtual 1 = .ok ())
include made room

theorem allocatedOk
    (ended : Work.allocateEach plan b.handles (State.initial b plan summary.numVirtual) = .ok () s) :
    b.allocateRenamed summary k options = ⟨s.block, .started b.size k summary.maxLive plan ::
      s.log.reverse ++ [.finished s.stats], .ok (s.output plan)⟩ := by
  have same : Work.allocateAll plan (State.initial b plan summary.numVirtual) = _ := allEach sound
  simp only [Block.allocateRenamed, made, room, same.trans ended]

theorem allocatedError {stop : Stop}
    (ended : Work.allocateEach plan b.handles (State.initial b plan summary.numVirtual) = .error stop s) :
    b.allocateRenamed summary k options =
      ⟨s.block, .started b.size k summary.maxLive plan :: s.log.reverse, .error stop⟩ := by
  have same : Work.allocateAll plan (State.initial b plan summary.numVirtual) = _ := allEach sound
  simp only [Block.allocateRenamed, made, room, same.trans ended]

end

theorem allocateKeeps (holds : P b)
    (admits : ∀ h ∈ b.handles, ∀ d i, P d → d.get (some h) = .ok i → Admits P h i) :
    P (b.allocateRenamed summary k options).block := by
  cases made : Plan.make k summary options with
  | error stop => simpa only [Block.allocateRenamed, made] using holds
  | ok plan =>
    cases room : reserve summary.numVirtual 1 with
    | error fault => simpa only [Block.allocateRenamed, made, room] using holds
    | ok _ =>
      have agrees := agreesSame (keepingLaws plan P) fun h listed => ⟨rfl, admits h listed⟩
      have kept : P ((Work.allocateEach plan b.handles).leaves
          (State.initial b plan summary.numVirtual)).block := keepsWork agrees holds
      cases ended : Work.allocateEach plan b.handles (State.initial b plan summary.numVirtual) with
      | ok _ s => rwa [allocatedOk sound made room ended, ← leavesOk ended]
      | error stop s => rwa [allocatedError sound made room ended, ← leavesError ended]

end
end
end Straightline.Allocation
