import Straightline.Proofs.Allocation.Midway

/-! The moments at which an allocation wants a register and none is free. Only then is a victim chosen
and evicted, while an operand of an instruction is resolved or its value is written. The log tells of
every victim, so it leads back to the state in which the choice was made. -/
namespace Straightline.Allocation

def Event.evicted : Event → Option (VirtualReg × PhysicalReg)
  | evictedConstant v p => some (v, p)
  | evictedClean v p => some (v, p)
  | evictedStored v p _ => some (v, p)
  | _ => none

def telling (plan : Plan) (base : List Event) (plain : Prop) : Coupling where
  plan
  shift := 0
  regs _ := True
  handles h h' := h' = h
  sites σ σ' := σ' = σ
  slots h h' _ := h' = h
  blocks b d := d = b
  logs log _ := ∃ new, log = new ++ base ∧ (plain → ∀ e ∈ new, e.taking = false)
  stops _ _ := True

/-- From `s` on, the work tells of a victim only where it takes a register at a `moment`. -/
def Marks (plan : Plan) (moment : Site → State → Prop) {α : Type} (work : Work α) (s : State) : Prop :=
  ∃ new, (work.leaves s).log = new ++ s.log ∧
    ∀ later e earlier, new = later ++ e :: earlier → e.taking = true →
      ∃ site t before after last, moment site t ∧ earlier ++ s.log = before ++ t.log ∧
        later = last ++ after ∧
        ((Work.takeRegister plan site).leaves t).log = after ++ e :: (before ++ t.log)

section
variable {plan : Plan} {moment : Site → State → Prop} {α β : Type} {s t : State} {site : Site}

theorem tellingLaws (plan : Plan) (base : List Event) (plain : Prop) :
    (telling plan base plain).Lawful where
  regs _ _ := trivial
  get := by
    rintro _ h _ b rfl rfl
    cases b.get (some h) with
    | error f => exact .error f
    | ok i => exact .ok ⟨⟨rfl, fun _ _ => rfl, fun _ _ => rfl⟩, fun _ => rfl, rfl, fun _ _ => rfl⟩
  insert := by
    rintro _ σ i j _ b rfl code rfl
    obtain rfl : j = i := by rw [codeLevel rfl code, ← (codeInserted code).2.1]
    cases b.insertBefore (some σ.handle) j with
    | error f => exact .error f
    | ok d => exact .ok rfl
  assign := by
    rintro _ h slot _ b p rfl rfl
    rfl
  valid := by
    rintro _ b rfl
    rfl
  tells := by
    rintro e f log log' quiet - ⟨new, rfl, others⟩
    exact ⟨e :: new, rfl, fun plain => List.forall_mem_cons.mpr ⟨quiet, others plain⟩⟩
  fault _ := trivial
  spill _ _ := trivial

theorem tellingChooses (plan : Plan) (base : List Event) : (telling plan base False).Chooses where
  toLawful := tellingLaws plan base False
  choice := by
    rintro e f log log' ⟨new, rfl, -⟩
    exact ⟨e :: new, rfl, False.elim⟩
  crowded _ := trivial

theorem tellsWork {plain : Prop} {post : α → Prop} {work : Work α}
    (agrees : Agrees (telling plan s.log plain) post work work) :
    ∃ new, (work.leaves s).log = new ++ s.log ∧ (plain → ∀ e ∈ new, e.taking = false) := by
  have start : (telling plan s.log plain).logs s.log s.log :=
    ⟨[], rfl, fun _ => List.forall_mem_nil _⟩
  rcases agreesLevel rfl (fun _ => trivial) agrees rfl s.log start with
    ⟨a, t, d, log, ran, -, -, told⟩ | ⟨e, f, t, d, log, ran, -, -, -, told⟩
  · rwa [leavesOk ran]
  · rwa [leavesError ran]

theorem marksQuiet {work : Work α}
    (agrees : Agrees (telling plan s.log True) (fun _ => True) work work) : Marks plan moment work s := by
  obtain ⟨new, told, quiet⟩ := tellsWork agrees
  refine ⟨new, told, fun later e earlier split taking => ?_⟩
  have plain := quiet trivial e (split ▸ List.mem_append_right _ List.mem_cons_self)
  rw [taking] at plain
  contradiction

theorem marksBind {x : Work α} {f : α → Work β} (first : Marks plan moment x s)
    (next : ∀ a t, x s = .ok a t → Marks plan moment (f a) t) : Marks plan moment (x >>= f) s := by
  obtain ⟨new, told, moments⟩ := first
  cases outcome : x s with
  | error e t =>
    rw [leavesError outcome] at told
    exact ⟨new, by rw [leavesError (workError outcome), told], moments⟩
  | ok a t =>
    rw [leavesOk outcome] at told
    obtain ⟨more, told', moments'⟩ := next a t outcome
    have leaves : (x >>= f).leaves s = (f a).leaves t := by simp only [Work.leaves, workOk outcome]
    refine ⟨more ++ new, by rw [leaves, told', told, List.append_assoc],
      fun later e earlier split taking => ?_⟩
    rcases List.append_eq_append_iff.mp split with ⟨gap, rfl, rest⟩ | ⟨gap, rest, behind⟩
    · obtain ⟨site, u, before, after, last, here, logged, rfl, takes⟩ := moments gap e earlier rest taking
      exact ⟨site, u, before, after, more ++ last, here, logged, (List.append_assoc ..).symm, takes⟩
    · rcases List.cons_eq_append_iff.mp behind with ⟨rfl, rest'⟩ | ⟨gap', rfl, rfl⟩
      · obtain ⟨site, u, before, after, last, here, logged, none, takes⟩ := moments [] e earlier rest' taking
        obtain ⟨rfl, rfl⟩ := List.append_eq_nil_iff.mp none.symm
        refine ⟨site, u, before, [], later, here, logged, by simp, takes⟩
      · obtain ⟨site, u, before, after, last, here, logged, split', takes⟩ :=
          moments' later e gap' rest taking
        exact ⟨site, u, before, after, last, here, by rw [← logged, told, List.append_assoc], split', takes⟩

theorem marksGet {f : State → Work α} (next : Marks plan moment (f s) s) :
    Marks plan moment (get >>= f) s := next

theorem marksSame {work : Work α} (log : (work.leaves s).log = s.log) : Marks plan moment work s :=
  ⟨[], log, by simp⟩

theorem marksOk {x : Except Fault α} {f : α → Work β}
    (next : ∀ a, x = .ok a → Marks plan moment (f a) s) :
    Marks plan moment (Work.ofExcept x >>= f) s := by
  cases x with
  | ok a => exact next a rfl
  | error e => exact marksSame rfl

theorem marksForM {f : α → Work Unit} (xs : List α)
    (each : ∀ done x rest t, xs = done ++ x :: rest → (done.forM f).after s = some t →
      Marks plan moment (f x) t) : Marks plan moment (xs.forM f) s := by
  induction xs generalizing s with
  | nil => exact marksSame rfl
  | cons x xs ih =>
    refine marksBind (each [] x xs s rfl rfl) fun _ t ok => ih fun done y rest t' split passed => ?_
    refine each (x :: done) y rest t' (by rw [split, List.cons_append]) ?_
    obtain ⟨a, ended⟩ := afterSome.mp passed
    refine afterSome.mpr ⟨a, ?_⟩
    rw [List.forM_eq_forM, List.forM_cons, workOk ok]
    exact ended

theorem marksTake (here : s.free = [] → moment site s) :
    Marks plan moment (Work.takeRegister plan site) s := by
  cases free : s.free with
  | cons p ps =>
    refine marksGet ?_
    rw [free]
    refine marksBind (marksSame rfl) fun _ t _ => ?_
    split
    · exact marksSame rfl
    · exact marksSame rfl
  | nil =>
    have paired : (telling plan s.log False).sites site site := rfl
    obtain ⟨new, told, -⟩ := tellsWork (agreesTake (tellingChooses plan s.log) paired)
    refine ⟨new, told, fun later e earlier split _ => ?_⟩
    refine ⟨site, s, earlier, later, [], here free, rfl, rfl, ?_⟩
    rw [split, List.append_assoc, List.cons_append] at told
    exact told

theorem marksPlace (v : Option VirtualReg) (u : NextUse) (here : s.free = [] → moment site s) :
    Marks plan moment (Work.placeInRegister plan site v u) s := by
  refine marksBind (marksTake here) fun p t _ => ?_
  have laws := tellingLaws plan t.log True
  exact marksQuiet (agreesBind (agreesRecord laws rfl rfl) fun _ _ => agreesBind (agreesOfExcept laws _)
    fun v _ => agreesBind (agreesPlace laws v u trivial) fun _ _ => agreesPure trivial)

theorem marksValue {v : VirtualReg} {f : Value → Work α} (next : ∀ x, Marks plan moment (f x) s) :
    Marks plan moment (Work.value v >>= f) s := by
  cases found : s.values[v.number]? with
  | some x =>
    refine marksBind (marksSame (by rw [leavesOk (valueOk found)])) fun y t ok => ?_
    rw [valueOk found, EStateM.Result.ok.injEq] at ok
    obtain ⟨rfl, rfl⟩ := ok
    exact next x
  | none => exact marksSame (by rw [leavesError (workError (valueLost found))])

theorem marksReadSlot {i : Instr} {slot : Slot} (here : s.free = [] → moment site s) :
    Marks plan moment (Work.readSlot plan site i slot) s := by
  refine marksOk fun v _ => marksBind ?_ fun p t _ => ?_
  · refine marksValue fun x => ?_
    cases x.home with
    | some p => exact marksSame rfl
    | none =>
      refine marksBind (marksPlace _ _ here) fun p t _ => ?_
      have laws := tellingLaws plan t.log True
      exact marksQuiet (agreesBind (agreesRestore laws rfl v trivial) fun _ _ => agreesPure trivial)
  · have laws := tellingLaws plan t.log True
    exact marksQuiet (agreesBind (agreesAssign laws rfl p) fun _ _ =>
      agreesBind (agreesPins (·.insert p)) fun _ _ => agreesUpdateRegister p _)

theorem marksWriteSlot {i : Instr} {slot : Slot} (here : s.free = [] → moment site s) :
    Marks plan moment (Work.writeSlot plan site i slot) s := by
  refine marksBind (marksPlace _ _ here) fun p t _ => ?_
  have laws := tellingLaws plan t.log True
  refine marksQuiet (agreesBind (agreesAssign laws rfl p) fun _ _ => agreesBind (agreesOfExcept laws _)
    fun v _ => agreesBind (agreesUpdateValue v (fun _ => rfl) fun _ _ home => .inl home) fun _ _ => ?_)
  split
  · exact agreesRelease laws v
  · exact agreesPure trivial

theorem afterOk {x : Work α} {f : α → Work β} {a : α} (ok : x s = .ok a t) :
    (x >>= f).after s = (f a).after t := by
  simp only [Work.after, workOk ok]

end

/-- The points of an instruction at which a register is wanted: for a slot that it reads, when those in
`done` have theirs, or for the value that it writes. -/
inductive Phase where
  | reading (done : List Slot)
  | writing
  deriving DecidableEq, Repr

def Phase.Wants (i : Instr) : Phase → Prop
  | reading done => ∃ slot rest, i.opcode.reads = done ++ slot :: rest
  | writing => i.opcode.writes.isSome

def Phase.done : Phase → List Slot
  | reading done => done
  | writing => []

def Phase.since (p : Nat) : Phase → Nat
  | reading _ => p
  | writing => p + 1

def Work.upTo (plan : Plan) (h : Handle) (i : Instr) : Phase → Work Unit
  | .reading done => do
    record (.reached h i)
    unpinAll
    done.forM (readSlot plan ⟨h, i.line⟩ i)
  | .writing => do
    record (.reached h i)
    unpinAll
    i.opcode.reads.forM (readSlot plan ⟨h, i.line⟩ i)
    i.lastReads.forM release
    unpinAll

/-- In the state `t` the allocation of `b` wants a register for the instruction `i` at position `p`, and
none is free. -/
structure Moment (plan : Plan) (n : Nat) (b : Block) (p : Nat) (h : Handle) (i : Instr) (phase : Phase)
    (t : State) : Prop where
  handle : b.handles[p]? = some h
  wants : phase.Wants i
  reached : ∃ s, Work.after ((b.handles.take p).forM (Work.allocateInstr plan))
    (State.initial b plan n) = some s ∧ s.block.get (some h) = .ok i ∧
    (Work.upTo plan h i phase).after s = some t
  full : t.free = []

section
variable {plan : Plan} {n k : Nat} {moment : Site → State → Prop} {s : State} {h : Handle} {b : Block}
  {summary : Renaming.Summary} {options : Options}

theorem marksInstr (here : ∀ i phase t, s.block.get (some h) = .ok i → phase.Wants i →
    (Work.upTo plan h i phase).after s = some t → t.free = [] → moment ⟨h, i.line⟩ t) :
    Marks plan moment (Work.allocateInstr plan h) s := by
  have unpins : ∀ t, Marks plan moment Work.unpinAll t := fun t => marksSame rfl
  refine marksGet (marksOk fun i found => ?_)
  refine marksBind (marksQuiet (agreesRecord (tellingLaws plan s.log True) rfl rfl)) fun _ r recorded => ?_
  refine marksBind (unpins r) fun _ u unpinned => ?_
  refine marksBind (marksForM _ fun done slot rest t split passed => marksReadSlot fun full => ?_)
    fun _ v read => ?_
  · refine here i (.reading done) t found ⟨slot, rest, split⟩ ?_ full
    rw [Work.upTo, afterOk recorded, afterOk unpinned, passed]
  · refine marksBind (marksQuiet (agreesForM _ fun w _ => agreesRelease (tellingLaws plan v.log True) w))
      fun _ w released => ?_
    refine marksBind (unpins w) fun _ x unpinned' => ?_
    refine marksBind ?_ fun _ y _ => marksQuiet (agreesAudits (tellingLaws plan y.log True) plan _)
    cases writes : i.opcode.writes with
    | none => exact marksSame rfl
    | some slot =>
      refine marksBind (marksWriteSlot fun full => ?_) fun _ y _ => marksSame rfl
      refine here i .writing x found (by simp [Phase.Wants, writes]) ?_ full
      rw [Work.upTo, afterOk recorded, afterOk unpinned, afterOk read, afterOk released]
      exact afterSome.mpr ⟨_, unpinned'⟩

theorem marksAll (plan : Plan) (n : Nat) (b : Block) :
    Marks plan (fun site t => ∃ p h i phase, site = ⟨h, i.line⟩ ∧ Moment plan n b p h i phase t)
      (Work.allocateEach plan b.handles) (State.initial b plan n) := by
  refine marksBind (marksForM _ fun done h rest s split passed => marksInstr
    fun i phase t found wants arrived full => ?_)
    fun _ t _ => marksGet (marksQuiet (agreesOfExcept (tellingLaws plan t.log True) _))
  refine ⟨done.length, h, i, phase, rfl, ?_, wants, ⟨s, ?_, found, arrived⟩, full⟩
  · rw [split, List.getElem?_append_right (Nat.le_refl _), Nat.sub_self]
    rfl
  · rw [split, List.take_left]
    exact passed

end

/-- At `t` the victim `w` loses its register: `e` tells of it, right behind the choice but for the spill
slot that the value may be given first. -/
structure Vacates (plan : Plan) (site : Site) (t : State) (w : Victim) (slots : List Event) (e : Event)
    (t' : State) : Prop where
  takes : Work.takeRegister plan site t = .ok w.reg t'
  registers : t'.registers = t.registers.modify w.reg.number fun _ => none
  slot : slots = [] ∨ ∃ slot, slots = [.slotGiven w.value slot]
  evicted : e.evicted = some (w.value, w.reg)
  told : ∃ code, t'.log = code ++ e :: (slots ++ .chosen w :: t.log) ∧ ∀ f ∈ code, f.taking = false

section
variable {plan : Plan} {site : Site} {s t : State} {v : VirtualReg} {p : PhysicalReg} {x : Value}
  {o : Occupant} {pre post : List (Handle × Instr)} {i : Instr}

theorem insertOk (spells : s.block.Spells (pre ++ (site.handle, i) :: post)) (j : Instr) :
    ∃ b : Block, Work.insert site j s = .ok () {s with
        block := b
        log := .inserted s.block.fresh site.handle :: .inserting site.handle j :: s.log
        stats := {s.stats with inserted := s.stats.inserted + 1}} ∧
      b.Spells ((pre ++ [(s.block.fresh, j)]) ++ (site.handle, i) :: post) := by
  obtain ⟨b, made, laid⟩ := Chain.insertSpells spells j
  refine ⟨b, ?_, by rwa [List.append_assoc]⟩
  have recorded : Work.record (.inserting site.handle j) s =
      .ok () {s with log := .inserting site.handle j :: s.log} := rfl
  unfold Work.insert
  rw [workOk recorded, workGet, made]
  rfl

theorem occupantOk {y : Option Occupant} (found : s.registers[p.number]? = some y) :
    Work.occupant p s = .ok y s := by
  unfold Work.occupant
  rw [workGet, found]
  rfl

theorem vacateOk (held : s.registers[p.number]? = some (some o)) : Work.vacate p s = .ok () {s with
    values := s.values.modify o.value.number fun x => {x with home := none}
    registers := s.registers.modify p.number fun _ => none} := by
  unfold Work.vacate
  rw [workOk (occupantOk held)]
  rfl

theorem victimOk {w : Victim} (found : Work.victimIn p s = .ok w t) : t = s ∧ w.reg = p ∧
    (∃ o, s.registers[p.number]? = some (some o) ∧ o.value = w.value) ∧
    ∃ x, s.values[w.value.number]? = some x := by
  unfold Work.victimIn at found
  cases place : s.registers[p.number]? with
  | none =>
    have lost : Work.occupant p s = .error (.fault (.outOfBounds s.registers.size p.number)) s := by
      unfold Work.occupant
      rw [workGet, place]
      rfl
    rw [workError lost] at found
    contradiction
  | some y =>
    rw [workOk (occupantOk place)] at found
    cases y with
    | none => contradiction
    | some o =>
      dsimp only at found
      cases record : s.values[o.value.number]? with
      | none =>
        have lost : Work.value o.value s = .error (.fault (.outOfBounds s.values.size o.value.number)) s := by
          unfold Work.value
          rw [workGet, record]
          rfl
        rw [workError lost] at found
        contradiction
      | some x =>
        rw [workOk (valueOk record)] at found
        cases found
        exact ⟨rfl, rfl, ⟨o, rfl, rfl⟩, x, record⟩

theorem victimsOk {ps : List PhysicalReg} {ws : List Victim} (found : ps.mapM Work.victimIn s = .ok ws t) :
    t = s ∧ ∀ w ∈ ws, (∃ o, s.registers[w.reg.number]? = some (some o) ∧ o.value = w.value) ∧
      ∃ x, s.values[w.value.number]? = some x := by
  induction ps generalizing ws t with
  | nil =>
    cases found
    exact ⟨rfl, List.forall_mem_nil _⟩
  | cons p ps ih =>
    rw [List.mapM_cons] at found
    cases first : Work.victimIn p s with
    | error e u =>
      rw [workError first] at found
      contradiction
    | ok w u =>
      obtain ⟨rfl, rfl, held, record⟩ := victimOk first
      rw [workOk first] at found
      cases rest : ps.mapM Work.victimIn u with
      | error e u' =>
        rw [workError rest] at found
        contradiction
      | ok ws u' =>
        obtain ⟨rfl, others⟩ := ih rest
        rw [workOk rest] at found
        cases found
        exact ⟨rfl, List.forall_mem_cons.mpr ⟨⟨held, record⟩, others⟩⟩

theorem chooseCases (plan : Plan) (site : Site) (s : State) :
    (∃ w, Work.chooseVictim plan site s = .ok w {s with log := .chosen w :: s.log} ∧
      (∃ o, s.registers[w.reg.number]? = some (some o)) ∧ ∃ x, s.values[w.value.number]? = some x) ∨
    ∃ stop t new, Work.chooseVictim plan site s = .error stop t ∧ t.log = new ++ s.log ∧
      ∀ e ∈ new, e.taking = false := by
  unfold Work.chooseVictim
  rw [workGet]
  cases found : (s.contenders plan).mapM Work.victimIn s with
  | error e t =>
    obtain ⟨new, told, quiet⟩ := tellsWork
      (agreesVictims (tellingLaws plan s.log True) (s.contenders plan))
    rw [leavesError found] at told
    exact .inr ⟨e, t, new, workError found, told, quiet trivial⟩
  | ok ws t =>
    obtain ⟨rfl, held⟩ := victimsOk found
    rw [workOk found]
    cases best : Victim.best ws with
    | none => exact .inr ⟨_, _, [], rfl, rfl, List.forall_mem_nil _⟩
    | some w =>
      obtain ⟨⟨o, occupied, -⟩, record⟩ := held w (bestMem best)
      exact .inl ⟨w, rfl, ⟨o, occupied⟩, record⟩

theorem storeOk (v : VirtualReg) (a : PhysicalReg) (w : Word)
    (held : s.registers[p.number]? = some (some o))
    (spells : s.block.Spells (pre ++ (site.handle, i) :: post)) :
    ∃ t code, (do
      Work.record (.evictedStored v p w)
      Work.insert site (.insertedLoadI site.line w (some a))
      Work.insert site (.insertedStore site.line (some p) (some a))
      Work.updateValue v fun x => {x with status := .clean}
      Work.count fun t => {t with stores := t.stores + 1}
      Work.vacate p) s = .ok () t ∧ t.log = code ++ .evictedStored v p w :: s.log ∧
      (∀ f ∈ code, f.taking = false) ∧ t.registers = s.registers.modify p.number fun _ => none := by
  have recorded : Work.record (.evictedStored v p w) s =
      .ok () {s with log := .evictedStored v p w :: s.log} := rfl
  rw [workOk recorded]
  obtain ⟨b, first, laid⟩ := insertOk (s := {s with log := .evictedStored v p w :: s.log}) spells
    (.insertedLoadI site.line w (some a))
  rw [workOk first]
  obtain ⟨d, second, -⟩ := insertOk (s := {s with
    block := b
    log := .inserted s.block.fresh site.handle ::
      .inserting site.handle (.insertedLoadI site.line w (some a)) :: .evictedStored v p w :: s.log
    stats := {s.stats with inserted := s.stats.inserted + 1}}) laid
    (.insertedStore site.line (some p) (some a))
  rw [workOk second]
  refine ⟨_, [_, _, _, _], vacateOk held, rfl, ?_, rfl⟩
  simp [Event.taking]

theorem evictCases (plan : Plan) (known : s.values[v.number]? = some x)
    (held : s.registers[p.number]? = some (some o))
    (spells : s.block.Spells (pre ++ (site.handle, i) :: post)) :
    (∃ t slots e code, Work.evict plan site v p s = .ok () t ∧ t.log = code ++ e :: (slots ++ s.log) ∧
      (∀ f ∈ code, f.taking = false) ∧ (slots = [] ∨ ∃ w, slots = [.slotGiven v w]) ∧
      e.evicted = some (v, p) ∧ t.registers = s.registers.modify p.number fun _ => none) ∨
    ∃ stop t, Work.evict plan site v p s = .error stop t ∧ t.log = s.log := by
  let counted : State := {s with stats := {s.stats with evictions := s.stats.evictions + 1}}
  have counts : Work.count (fun t => {t with evictions := t.evictions + 1}) s = .ok () counted := rfl
  have known' : counted.values[v.number]? = some x := known
  unfold Work.evict
  rw [workOk counts, workOk (valueOk known')]
  cases x.cost with
  | constant => exact .inl ⟨_, [], .evictedConstant v p, [], vacateOk held, rfl, by simp, .inl rfl, rfl, rfl⟩
  | clean => exact .inl ⟨_, [], .evictedClean v p, [], vacateOk held, rfl, by simp, .inl rfl, rfl, rfl⟩
  | dirty =>
    unfold Work.addressRegister
    cases plan.address with
    | none => exact .inr ⟨_, counted, rfl, rfl⟩
    | some a =>
      dsimp only
      rw [pure_bind]
      cases slot : x.slot with
      | some w =>
        rw [workOk (spillSlotKnown known' slot)]
        obtain ⟨t, code, ran, told, quiet, registers⟩ := storeOk (s := counted) v a w held spells
        exact .inl ⟨t, [], _, code, ran, told, quiet, .inl rfl, rfl, registers⟩
      | none =>
        rcases Nat.lt_or_ge (counted.nextAddress.toNat + slotSize) 4294967296 with room | large
        · rw [workOk (spillSlotFresh known' slot room)]
          obtain ⟨t, code, ran, told, quiet, registers⟩ :=
            storeOk (s := counted.giveSlot v) v a counted.nextAddress held spells
          exact .inl ⟨t, [_], _, code, ran, told, quiet, .inr ⟨_, rfl⟩, rfl, registers⟩
        · rw [workError (spillSlotOver known' slot large)]
          exact .inr ⟨_, counted, rfl, rfl⟩

theorem takeCases (plan : Plan) (site : Site) (full : t.free = [])
    (spells : t.block.Spells (pre ++ (site.handle, i) :: post)) :
    (∃ w slots e t', Work.chooseVictim plan site t = .ok w {t with log := .chosen w :: t.log} ∧
      Vacates plan site t w slots e t') ∨
    (∃ w stop t', Work.chooseVictim plan site t = .ok w {t with log := .chosen w :: t.log} ∧
      Work.takeRegister plan site t = .error stop t' ∧ t'.log = .chosen w :: t.log) ∨
    ∃ stop t' new, Work.takeRegister plan site t = .error stop t' ∧ t'.log = new ++ t.log ∧
      ∀ e ∈ new, e.taking = false := by
  have emptied : Work.takeRegister plan site t = (do
      let w ← Work.chooseVictim plan site
      Work.evict plan site w.value w.reg
      pure w.reg) t := by
    rw [Work.takeRegister, workGet, full]
  rcases chooseCases plan site t with ⟨w, chosen, ⟨o, held⟩, x, known⟩ | ⟨stop, t', new, failed, told, quiet⟩
  · rw [workOk chosen] at emptied
    rcases evictCases (s := {t with log := .chosen w :: t.log}) plan known held spells with
      ⟨t', slots, e, code, ran, told, quiet, slot, evicted, registers⟩ | ⟨stop, t', failed, told⟩
    · exact .inl ⟨w, slots, e, t', chosen, emptied.trans (workOk ran), registers, slot, evicted,
        code, told, quiet⟩
    · exact .inr (.inl ⟨w, stop, t', chosen, emptied.trans (workError failed), told⟩)
  · exact .inr (.inr ⟨stop, t', new, emptied.trans (workError failed), told, quiet⟩)

end
section
variable {plan : Plan} {k : Nat} {b : Block} {summary : Renaming.Summary} {options : Options} {e : Event}
  {pre post : List Event}

theorem markedAt {α : Type} {q : α → Bool} {x y : α} {after before code tail : List α}
    (split : after ++ x :: before = code ++ y :: tail) (marked : q x = true)
    (quiet : ∀ z ∈ code, q z = false) :
    after = code ∧ x = y ∧ before = tail ∨ ∃ more, after = code ++ y :: more ∧ more ++ x :: before = tail := by
  rcases List.append_eq_append_iff.mp split with ⟨gap, rfl, rest⟩ | ⟨gap, rfl, rest⟩
  · rcases List.cons_eq_append_iff.mp rest with ⟨rfl, same⟩ | ⟨gap, rfl, -⟩
    · obtain ⟨rfl, rfl⟩ := List.cons.inj same
      exact .inl ⟨by simp, rfl, rfl⟩
    · have plain := quiet x (List.mem_append_right _ List.mem_cons_self)
      rw [marked] at plain
      contradiction
  · rcases List.cons_eq_append_iff.mp rest with ⟨rfl, same⟩ | ⟨gap, rfl, rfl⟩
    · obtain ⟨rfl, rfl⟩ := List.cons.inj same
      exact .inl ⟨by simp, rfl, rfl⟩
    · exact .inr ⟨gap, rfl, rfl⟩

theorem markedInside {α : Type} {q : α → Bool} {x y : α} {xs tail pre post : List α}
    (split : x :: xs ++ tail = pre ++ y :: post) (marked : q y = true) (first : q x = false)
    (last : ∀ z ∈ tail, q z = false) :
    ∃ before after, xs = before ++ y :: after ∧ pre = x :: before ∧ post = after ++ tail := by
  have other : y ≠ x := fun same => by rw [same, first] at marked; contradiction
  have outside : y ∉ tail := fun inside => by rw [last y inside] at marked; contradiction
  rw [List.cons_append] at split
  rcases List.cons_eq_append_iff.mp split with ⟨rfl, same⟩ | ⟨before, rfl, rest⟩
  · exact absurd (List.cons.inj same).1 other
  · rcases List.append_eq_append_iff.mp rest with ⟨gap, rfl, late⟩ | ⟨gap, rfl, early⟩
    · exact absurd (late ▸ List.mem_append_right gap List.mem_cons_self) outside
    · rcases List.cons_eq_append_iff.mp early with ⟨rfl, late⟩ | ⟨gap, rfl, rfl⟩
      · exact absurd (late ▸ List.mem_cons_self) outside
      · exact ⟨before, gap, rfl, rfl, rfl⟩

theorem vacatesTold {site : Site} {t t' : State} {w : Victim} {slots before after : List Event}
    {e' : Event} (vacates : Vacates plan site t w slots e' t') (taking : e.taking = true)
    (told : ((Work.takeRegister plan site).leaves t).log = after ++ e :: (before ++ t.log)) :
    e = .chosen w ∧ before = [] ∧ (∃ code, after = code ++ e' :: slots) ∨
      e = e' ∧ before = slots ++ [.chosen w] := by
  obtain ⟨code, log, quiet⟩ := vacates.told
  have plain : ∀ f ∈ slots, f.taking = false := by
    rcases vacates.slot with rfl | ⟨slot, rfl⟩
    · exact List.forall_mem_nil _
    · simp [Event.taking]
  have stretch : after ++ e :: before = code ++ e' :: (slots ++ [.chosen w]) := by
    rw [leavesOk vacates.takes, log] at told
    apply (List.append_left_inj t.log).mp
    simpa using told.symm
  rcases markedAt stretch taking quiet with ⟨-, rfl, rfl⟩ | ⟨more, rfl, choice⟩
  · exact .inr ⟨rfl, rfl⟩
  · rcases markedAt choice taking plain with ⟨rfl, rfl, rfl⟩ | ⟨_, -, none⟩
    · exact .inl ⟨rfl, rfl, code, rfl⟩
    · simp at none

theorem toldCases {front back : List (Handle × Instr)} {i : Instr} {t : State} {before after : List Event}
    (plan : Plan) (site : Site) (full : t.free = [])
    (spells : t.block.Spells (front ++ (site.handle, i) :: back)) (taking : e.taking = true)
    (told : ((Work.takeRegister plan site).leaves t).log = after ++ e :: (before ++ t.log)) :
    ∃ w, Work.chooseVictim plan site t = .ok w {t with log := .chosen w :: t.log} ∧
      ((∃ slots e' t', Vacates plan site t w slots e' t' ∧
          (e = .chosen w ∧ before = [] ∧ (∃ code, after = code ++ e' :: slots) ∨
            e = e' ∧ before = slots ++ [.chosen w])) ∨
        e = .chosen w ∧ before = [] ∧ ∃ stop t', Work.takeRegister plan site t = .error stop t') := by
  rcases takeCases plan site full spells with
    ⟨w, slots, e', t', chosen, vacates⟩ | ⟨w, stop, t', chosen, failed, log⟩ |
    ⟨stop, t', new, failed, log, quiet⟩
  · exact ⟨w, chosen, .inl ⟨slots, e', t', vacates, vacatesTold vacates taking told⟩⟩
  · rw [leavesError failed, log] at told
    have alone : [Event.chosen w] = after ++ e :: before :=
      (List.append_left_inj t.log).mp (by simpa using told)
    rcases List.singleton_eq_append_iff.mp alone with ⟨rfl, same⟩ | ⟨-, none⟩
    · obtain ⟨rfl, rfl⟩ := List.cons.inj same
      exact ⟨w, chosen, .inr ⟨rfl, rfl, stop, t', failed⟩⟩
    · contradiction
  · rw [leavesError failed, log] at told
    have plain : new = after ++ e :: before :=
      (List.append_left_inj t.log).mp (by simpa using told)
    have none := quiet e (plain ▸ List.mem_append_right _ List.mem_cons_self)
    rw [taking] at none
    contradiction

theorem takenMoment (sound : b.Sound)
    (split : (b.allocateRenamed summary k options).events = pre ++ e :: post) (taking : e.taking = true) :
    ∃ plan p h i phase t before after rest, Plan.make k summary options = .ok plan ∧
      Moment plan summary.numVirtual b p h i phase t ∧
      pre = .started b.size k summary.maxLive plan :: (before ++ t.log).reverse ∧
      post = after.reverse ++ rest ∧
      ((Work.takeRegister plan ⟨h, i.line⟩).leaves t).log = after ++ e :: (before ++ t.log) := by
  cases made : Plan.make k summary options with
  | error stop => simp [Block.allocateRenamed, made] at split
  | ok plan =>
    cases room : reserve summary.numVirtual 1 with
    | error fault =>
      simp only [Block.allocateRenamed, made, room] at split
      have inside : e ∈ [Event.started b.size k summary.maxLive plan] := by
        rw [split]
        exact List.mem_append_right _ List.mem_cons_self
      obtain rfl := List.mem_singleton.mp inside
      contradiction
    | ok _ =>
      obtain ⟨new, told, moments⟩ := marksAll plan summary.numVirtual b
      have log : ∃ before after rest, new.reverse = before ++ e :: after ∧
          pre = .started b.size k summary.maxLive plan :: before ∧ post = after ++ rest := by
        cases ended : Work.allocateEach plan b.handles (State.initial b plan summary.numVirtual) with
        | ok _ s =>
          rw [leavesOk ended, State.initial, List.append_nil] at told
          rw [allocatedOk sound made room ended, told] at split
          obtain ⟨before, after, order, front, back⟩ := markedInside split taking rfl (by simp [Event.taking])
          exact ⟨before, after, _, order, front, back⟩
        | error stop s =>
          rw [leavesError ended, State.initial, List.append_nil] at told
          rw [allocatedError sound made room ended, told, ← List.append_nil (_ :: new.reverse)] at split
          obtain ⟨before, after, order, front, back⟩ := markedInside split taking rfl (List.forall_mem_nil _)
          exact ⟨before, after, _, order, front, back⟩
      obtain ⟨front, back, rest, reversed, rfl, rfl⟩ := log
      have order := congrArg List.reverse reversed
      rw [List.reverse_reverse, List.reverse_append, List.reverse_cons, List.append_assoc,
        List.singleton_append] at order
      obtain ⟨_, t, before, after, last, ⟨p, h, i, phase, rfl, moment⟩, logged, behind, takes⟩ :=
        moments _ e _ order taking
      rw [State.initial, List.append_nil] at logged
      refine ⟨plan, p, h, i, phase, t, before, after, last.reverse ++ rest, rfl, moment, ?_, ?_, takes⟩
      · rw [← logged, List.reverse_reverse]
      · rw [← List.append_assoc, ← List.reverse_append, ← behind, List.reverse_reverse]

end

open Renaming (Step Renames envAbove)

inductive Arrives (plan : Plan) (h : Handle) (i : Instr) (l : Ledger) : Phase → Ledger → Prop where
  | reading {done : List Slot} {m : Ledger} (reads : Resolves plan ⟨h, i.line⟩ i done l.unpin m) :
      Arrives plan h i l (.reading done) m
  | writing {m : Ledger} (reads : Resolves plan ⟨h, i.line⟩ i i.opcode.reads l.unpin m) :
      Arrives plan h i l .writing (m.releases i.lastReads).unpin

section
variable {plan : Plan} {n p : Nat} {site : Site} {h : Handle} {i j : Instr} {l m : Ledger}
  {phase : Phase} {slots : List Slot} {rest es : List (Handle × Instr)} {v : VirtualReg}
  {c : PhysicalReg} {u : NextUse} {b : Block} {t : State} {s : Step} {past steps : List Step}

theorem phaseReads (wants : phase.Wants i) : phase.done ⊆ i.opcode.reads ∧ phase.done.Nodup := by
  cases phase with
  | writing => exact ⟨List.nil_subset _, List.nodup_nil⟩
  | reading done =>
    obtain ⟨slot, later, split⟩ := wants
    have distinct := Opcode.readsDistinct i.opcode
    rw [split] at distinct
    exact ⟨by rw [split]; exact List.subset_append_left _ _, (List.nodup_append.mp distinct).1⟩

theorem runsUpTo (sound : Sound plan n l l.free) (head : l.rest = (h, i) :: rest)
    (wants : Wants n i l) (point : phase.Wants i) :
    Runs plan n (Work.upTo plan h i phase) l (fun _ m => Arrives plan h i l phase m) fun _ _ => True := by
  have entered : l.unpin.rest = ((⟨h, i.line⟩ : Site).handle, i) :: rest := head
  cases phase with
  | reading done =>
    have some : ∀ slot ∈ done, slot ∈ i.opcode.reads := (phaseReads point).1
    exact runsBind (runsRecord (runsBind (runsUnpin (runsReads (startReading sound) entered
      (fun slot inside => wants.reads slot (some slot inside)) (fun m reads => .reading reads)
      fun _ _ _ => trivial))))
  | writing =>
    refine runsBind (runsRecord (runsBind (runsUnpin (runsBind (runsReads (startReading sound) entered
      wants.reads (fun m reads => ?_) fun _ _ _ => trivial)))))
    have reading := resolvesReading (wantsKnown wants) reads (startReading sound)
    exact runsBind (runsReleases reading.sound (wantsLast wants) (runsUnpin (.writing reads)))

theorem momentLedger (few : plan.usable ≤ 64) (renames : Renames 0 es steps)
    (given : ∀ e ∈ es, e.2.inserted = false)
    (spells : b.Spells (steps.map fun s => (s.handle, s.instr)))
    (numbered : (envAbove steps).minted ≤ n) (moment : Moment plan n b p h i phase t) :
    ∃ past s rest l m, steps = past ++ s :: rest ∧ p = past.length ∧ h = s.handle ∧ i = s.instr ∧
      Midway plan n past (s :: rest) l ∧ Arrives plan s.handle s.instr l phase m ∧
      Reflects plan n t m := by
  obtain ⟨handle, point, ⟨start, passed, found, arrived⟩, -⟩ := moment
  have handles : b.handles = steps.map Step.handle := by
    rw [Chain.spellsHandles spells, List.map_map]
    rfl
  rw [handles, List.getElem?_map] at handle
  obtain ⟨s, here, rfl⟩ := Option.map_eq_some_iff.mp handle
  obtain ⟨inside, rfl⟩ := List.getElem?_eq_some_iff.mp here
  have split : steps = steps.take p ++ steps[p] :: steps.drop (p + 1) := by
    rw [← List.drop_eq_getElem_cons inside, List.take_append_drop]
  have initial := initialMidway (n := n) plan renames given numbered
  nth_rewrite 1 [split] at initial
  have ran := runsMidway few (steps.take p) initial (State.initial b plan n) (initialReflects spells)
  rw [handles, ← List.map_take] at passed
  obtain ⟨_, ended⟩ := afterSome.mp passed
  rw [ended] at ran
  obtain ⟨l, reflects, midway⟩ := ran
  rw [List.nil_append] at midway
  have spelled := reflects.spells
  rw [midway.stage.rest] at spelled
  obtain rfl : i = steps[p].instr := Except.ok.inj (found.symm.trans (Chain.getSpells spelled))
  have ran' := runsUpTo midway.stage.sound midway.stage.rest (midwayWants midway) point start reflects
  obtain ⟨_, ended'⟩ := afterSome.mp arrived
  rw [ended'] at ran'
  obtain ⟨m, reflects', arrives⟩ := ran'
  refine ⟨steps.take p, steps[p], steps.drop (p + 1), l, m, split, ?_, rfl, rfl, midway, arrives, reflects'⟩
  rw [List.length_take, Nat.min_eq_left (Nat.le_of_lt inside)]

theorem arrivesSound (midway : Midway plan n past (s :: steps) l) (point : phase.Wants s.instr)
    (arrives : Arrives plan s.handle s.instr l phase m) : Sound plan n m m.free := by
  have wants := midwayWants midway
  cases arrives with
  | reading reads =>
    exact (resolvesReading (fun slot inside => wantsKnown wants slot ((phaseReads point).1 inside)) reads
      (startReading midway.stage.sound)).sound
  | writing reads => exact resolvedSound wants midway.stage.sound reads

theorem resolvesPins (distinct : slots.Nodup) (resolves : Resolves plan site i slots l m)
    (houses : i.Houses j) (head : l.rest = (site.handle, j) :: rest) :
    ∃ j', i.Houses j' ∧ m.rest = (site.handle, j') :: rest ∧
      (∀ slot ∉ slots, j'.operand slot = j.operand slot) ∧ ∀ c, m.pinned.contains c = true ↔
        l.pinned.contains c = true ∨ ∃ slot ∈ slots, (j'.operand slot).physical = some c := by
  induction resolves generalizing j with
  | nil l => exact ⟨j, houses, head, fun _ _ => rfl, by simp⟩
  | @cons slot slots v p l m k virtual fetches later ih =>
    obtain ⟨apart, distinct⟩ := List.nodup_cons.mp distinct
    obtain ⟨j', houses', rest', same, pinned⟩ := ih distinct (Instr.housesSet houses slot p)
      (resolveRest ((fetchesRest fetches).1.trans head))
    refine ⟨j', houses', rest', fun t outside => ?_, fun c => ?_⟩
    · obtain ⟨other, outside⟩ := List.ne_and_not_mem_of_not_mem_cons outside
      rw [same t outside, Instr.setPhysical, Instr.operandSetOther _ _ other]
    · have placed : (j'.operand slot).physical = some p := by
        rw [same slot apart, Instr.setPhysical, Instr.operandSetSame]
      rw [pinned, List.exists_mem_cons_iff, placed, Ledger.resolve, RegisterSet.containsInsert,
        (fetchesRest fetches).2, Bool.or_eq_true, beq_iff_eq, Option.some.injEq, or_assoc]

theorem arrivesPins (point : phase.Wants i) (head : l.rest = (h, i) :: rest)
    (arrives : Arrives plan h i l phase m) : ∃ j, i.Houses j ∧ m.rest = (h, j) :: rest ∧
      ∀ c, m.pinned.contains c = true ↔ ∃ slot ∈ phase.done, (j.operand slot).physical = some c := by
  have entered : l.unpin.rest = ((⟨h, i.line⟩ : Site).handle, i) :: rest := head
  cases arrives with
  | reading reads =>
    obtain ⟨j, houses, rest', -, pinned⟩ := resolvesPins (phaseReads point).2 reads
      (Instr.housesRefl i) entered
    refine ⟨j, houses, rest', fun c => ?_⟩
    rw [pinned, Ledger.unpin, RegisterSet.containsEmpty]
    simp [Phase.done]
  | writing reads =>
    obtain ⟨j, houses, rest', -⟩ := resolvesPins (Opcode.readsDistinct i.opcode) reads
      (Instr.housesRefl i) entered
    refine ⟨j, houses, (releasesRest _ i.lastReads).1.trans rest', fun c => ?_⟩
    rw [Ledger.unpin, RegisterSet.containsEmpty]
    simp [Phase.done]

theorem arrivesNext (midway : Midway plan n past (s :: steps) l) (point : phase.Wants s.instr)
    (arrives : Arrives plan s.handle s.instr l phase m) (held : m.holder c = some ⟨v, u⟩)
    (unpinned : m.pinned.contains c = false) :
    FirstValueRead ((past ++ s :: steps).map Step.instr) v (phase.since past.length) u.rank := by
  obtain ⟨es, renames, -⟩ := midway.renames
  have wants := midwayWants midway
  have sound := midway.stage.sound
  have lengths : (past.map Step.instr).length = past.length := List.length_map _
  cases arrives with
  | @reading done _ reads =>
    have known := fun slot inside => wantsKnown wants slot ((phaseReads point).1 inside)
    have scans := resolvesScans known (phaseReads point).1 reads (startScans sound midway.tracks)
    obtain ⟨q, rank, -, first⟩ := Renaming.nextFirst renames (scans.unpinned c v u held unpinned)
    have behind := firstValueReadBehind (past.map Step.instr) first
    rw [lengths, ← rank, ← List.map_append, Nat.add_zero] at behind
    exact behind
  | writing reads =>
    have next := resolvedTracks renames midway.stage midway.numbered midway.tracks reads c v u held
    cases renames with
    | @cons _ h i j env es _ inRange pass below =>
      obtain ⟨q, rank, -, first⟩ := Renaming.nextFirst below next
      have behind := firstValueReadBehind ((past ++ [(⟨past.length, h, j, env⟩ : Step)]).map Step.instr) first
      rw [← List.map_append, List.length_map, List.length_append, List.length_singleton, ← rank,
        List.append_assoc, List.singleton_append, Nat.add_zero] at behind
      exact behind

theorem arrivesPuts (midway : Midway plan n past (s :: steps) l) (point : phase.Wants s.instr)
    (arrives : Arrives plan s.handle s.instr l phase m) :
    ∃ groups j, Puts plan s.instr.line l m groups ∧ m.Served plan j groups := by
  have wants := midwayWants midway
  have reading := startReading midway.stage.sound
  have entered : l.unpin.rest = ((⟨s.handle, s.instr.line⟩ : Site).handle, s.instr) :: _ :=
    midway.stage.rest
  cases arrives with
  | reading reads =>
    have known := fun slot inside => wantsKnown wants slot ((phaseReads point).1 inside)
    obtain ⟨groups, j, puts, -, -, -, served⟩ := resolvesPuts known
      (fun slot inside => (phaseReads point).1 inside) (phaseReads point).2 reads reading
      (Instr.housesRefl s.instr) entered
    exact ⟨groups, j, {puts with}, served⟩
  | @writing m reads =>
    obtain ⟨groups, j, puts, -, -, -, served⟩ := resolvesPuts (wantsKnown wants)
      (fun slot inside => inside) (Opcode.readsDistinct s.instr.opcode) reads reading
      (Instr.housesRefl s.instr) entered
    have released : Puts plan s.instr.line m (m.releases s.instr.lastReads).unpin [] :=
      releasesPuts m s.instr.lastReads
    have both := putsTrans puts released
    rw [List.append_nil] at both
    exact ⟨groups, j, {both with}, servedPuts released served⟩

theorem arrivesNew (midway : Midway plan n past (s :: steps) l) (point : phase.Wants s.instr)
    (arrives : Arrives plan s.handle s.instr l phase m)
    (later : some v ∈ writtenRegs .virtual ((s :: steps).map Step.instr)) : m.record v = {} := by
  obtain ⟨es, renames, -⟩ := midway.renames
  have wants := midwayWants midway
  have reading := startReading midway.stage.sound
  have new : l.unpin.record v = {} := midway.stage.fresh v later
  have unread : ∀ slot ∈ s.instr.opcode.reads, (s.instr.operand slot).virtual ≠ some v := by
    intro slot inside virtual
    obtain ⟨w, same, -, dead⟩ := Renaming.renamesWritten renames later
    obtain rfl := Option.some.inj same
    cases renames with
    | cons inRange pass below =>
      exact dead (Renaming.flowsRead (Renaming.renamesFlows pass below) inside virtual).1
  cases arrives with
  | reading reads =>
    exact resolvesNew (fun slot inside => wantsKnown wants slot ((phaseReads point).1 inside)) reads
      reading (fun slot inside => unread slot ((phaseReads point).1 inside)) new
  | @writing m reads =>
    have resolved := resolvesNew (wantsKnown wants) reads reading unread new
    exact releasesInduct (fun l => l.record v = {}) (fun _ w new => releaseNew new w) _ resolved

end
end Straightline.Allocation
