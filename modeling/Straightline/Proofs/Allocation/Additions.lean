import Straightline.Proofs.Allocation.Frame
import Straightline.Proofs.Allocation.Outcome
import Straightline.Proofs.Renaming.Reaching

/-! What allocation adds to a block. The instructions it was given keep their order and their handles,
and physical registers are filled in only where the operation has a use for them. All else is inserted
code that stands in front of a given instruction and has its line. This holds wherever allocation got
to, whether it ended or stopped. -/
namespace Straightline

def Operand.bare (op : Operand) : Operand := {op with physical := none}

def Instr.bare (i : Instr) : Instr :=
  {i with first := i.first.bare, second := i.second.bare, third := i.third.bare}

theorem Instr.operandBare (i : Instr) (slot : Slot) : i.bare.operand slot = (i.operand slot).bare := by
  cases slot <;> rfl

theorem Instr.setPhysicalBare (i : Instr) (slot : Slot) (p : PhysicalReg) :
    (i.setPhysical slot p).bare = i.bare := by
  cases slot <;> rfl

structure Instr.Fills (i j : Instr) : Prop where
  bare : j.bare = i.bare
  unused : ∀ slot, slot ∉ i.opcode.reads → i.opcode.writes ≠ some slot → j.operand slot = i.operand slot

structure Instr.Remains (i j : Instr) : Prop where
  line : j.line = i.line
  opcode : j.opcode = i.opcode
  constant : j.constant = i.constant
  inserted : j.inserted = i.inserted
  source : ∀ slot, (j.operand slot).source = (i.operand slot).source
  unused : ∀ slot, slot ∉ i.opcode.reads → i.opcode.writes ≠ some slot → j.operand slot = i.operand slot

namespace Instr

variable {i j k : Instr}

theorem fillsLine (fills : i.Fills j) : j.line = i.line := by
  show j.bare.line = i.bare.line
  rw [fills.bare]

theorem fillsOpcode (fills : i.Fills j) : j.opcode = i.opcode := by
  show j.bare.opcode = i.bare.opcode
  rw [fills.bare]

theorem fillsConstant (fills : i.Fills j) : j.constant = i.constant := by
  show j.bare.constant = i.bare.constant
  rw [fills.bare]

theorem fillsInserted (fills : i.Fills j) : j.inserted = i.inserted := by
  show j.bare.inserted = i.bare.inserted
  rw [fills.bare]

theorem fillsSet {slot : Slot} (fills : i.Fills j)
    (used : slot ∈ i.opcode.reads ∨ i.opcode.writes = some slot) (p : PhysicalReg) :
    i.Fills (j.setPhysical slot p) := by
  refine ⟨(j.setPhysicalBare slot p).trans fills.bare, fun t unread unwritten => ?_⟩
  have other : t ≠ slot := by
    rintro rfl
    exact used.elim unread unwritten
  rw [setPhysical, operandSetOther _ _ other]
  exact fills.unused t unread unwritten

theorem annotatesRemains (annotates : Renaming.Annotates i j) (fills : j.Fills k) : i.Remains k where
  line := (fillsLine fills).trans annotates.line
  opcode := (fillsOpcode fills).trans annotates.opcode
  constant := (fillsConstant fills).trans annotates.constant
  inserted := (fillsInserted fills).trans annotates.inserted
  source slot := by
    have same := congrArg (fun x => (operand x slot).source) fills.bare
    simp only [operandBare] at same
    exact same.trans (annotates.source slot)
  unused slot unread unwritten := by
    rw [← annotates.opcode] at unread unwritten
    rw [fills.unused slot unread unwritten]
    rw [annotates.opcode] at unread unwritten
    exact annotates.unused slot unread unwritten

end Instr

namespace Allocation
open Renaming (Step Renames envAbove)

/-- The entries `es` are those of `base`, filled in, with inserted code in front of them. -/
inductive Grows : List (Handle × Instr) → List (Handle × Instr) → Prop where
  | nil : Grows [] []
  | given {h : Handle} {i j : Instr} {base es : List (Handle × Instr)} (fills : i.Fills j)
      (rest : Grows base es) : Grows ((h, i) :: base) ((h, j) :: es)
  | inserted {g h : Handle} {i x : Instr} {base es : List (Handle × Instr)} (new : x.inserted = true)
      (line : x.line = i.line) (rest : Grows ((h, i) :: base) es) :
      Grows ((h, i) :: base) ((g, x) :: es)

def Grown (base : List (Handle × Instr)) (b : Block) : Prop := ∃ es, b.Spells es ∧ Grows base es

section
variable {base es before after : List (Handle × Instr)} {b : Block} {h : Handle} {i x : Instr}

theorem growsRefl (base : List (Handle × Instr)) : Grows base base := by
  induction base with
  | nil => exact .nil
  | cons e base ih => exact .given ⟨rfl, fun _ _ _ => rfl⟩ ih

theorem growsSplit (grows : Grows (before ++ (h, i) :: after) es) :
    ∃ pre j post, es = pre ++ (h, j) :: post ∧ i.Fills j ∧ Grows after post ∧
      ∀ tail, Grows ((h, i) :: after) tail → Grows (before ++ (h, i) :: after) (pre ++ tail) := by
  generalize whole : before ++ (h, i) :: after = base at grows
  induction grows generalizing before with
  | nil => simp at whole
  | @given g i' j base es fills rest ih =>
    cases before with
    | nil =>
      obtain ⟨⟨rfl, rfl⟩, rfl⟩ : (h = g ∧ i = i') ∧ after = base := by simpa using whole
      exact ⟨[], j, es, rfl, fills, rest, fun tail grows => grows⟩
    | cons e before =>
      obtain ⟨rfl, rfl⟩ := List.cons.inj whole
      obtain ⟨pre, j', post, rfl, fills', rest', rebuilt⟩ := ih rfl
      exact ⟨(g, j) :: pre, j', post, rfl, fills', rest',
        fun tail grows => .given fills (rebuilt tail grows)⟩
  | @inserted g _ _ x base es new line rest ih =>
    obtain ⟨pre, j, post, rfl, fills, rest', rebuilt⟩ := ih whole
    exact ⟨(g, x) :: pre, j, post, rfl, fills, rest',
      fun tail grows => .inserted new line (rebuilt tail grows)⟩

theorem grownAdmits (listed : h ∈ base.map Prod.fst) (grown : Grown base b)
    (found : b.get (some h) = .ok i) : Admits (Grown base) h i := by
  obtain ⟨⟨h, first⟩, inside, rfl⟩ := List.mem_map.mp listed
  obtain ⟨before, after, rfl⟩ := List.append_of_mem inside
  have now : first.Fills i := by
    obtain ⟨es, spells, grows⟩ := grown
    obtain ⟨pre, j, post, rfl, fills, -⟩ := growsSplit grows
    obtain rfl := Except.ok.inj (found.symm.trans (Chain.getSpells spells))
    exact fills
  constructor
  · intro b d x grown new line made
    obtain ⟨es, spells, grows⟩ := grown
    obtain ⟨pre, j, post, rfl, fills, rest, rebuilt⟩ := growsSplit grows
    obtain ⟨d', made', spelled⟩ := Chain.insertSpells spells x
    obtain rfl := Except.ok.inj (made.symm.trans made')
    exact ⟨_, spelled, rebuilt _ (.inserted new (line.trans (Instr.fillsLine now)) (.given fills rest))⟩
  · intro b slot p grown used
    obtain ⟨es, spells, grows⟩ := grown
    obtain ⟨pre, j, post, rfl, fills, rest, rebuilt⟩ := growsSplit grows
    rw [Instr.fillsOpcode now, Opcode.memSlots] at used
    exact ⟨_, Chain.modifySpells (Instr.setPhysical · slot p) spells,
      rebuilt _ (.given (Instr.fillsSet fills used p) rest)⟩

theorem allocateGrown (sound : b.Sound) (summary : Renaming.Summary) (k : Nat) (options : Options) :
    Grown b.entries (b.allocateRenamed summary k options).block := by
  have spells := Chain.soundSpells sound
  have start : Grown b.entries b := ⟨_, spells, growsRefl _⟩
  refine allocateKeeps sound start fun h inside d i grown found => ?_
  rw [Chain.spellsHandles spells] at inside
  exact grownAdmits inside grown found

theorem renamedWhole (whole : b.Whole) : b.rename.block.Whole := by
  unfold Block.rename
  split
  · exact Chain.wholeAssign whole _
  · exact whole

theorem allocateWhole (whole : b.Whole) (summary : Renaming.Summary) (k : Nat) (options : Options) :
    (b.allocateRenamed summary k options).block.Whole :=
  allocateKeeps whole.sound whole fun h _ _ _ _ _ =>
    ⟨fun _ _ _ whole _ _ made => Chain.wholeInsert whole made,
      fun _ _ _ whole _ => Chain.wholeModify whole h _⟩

theorem growsGiven (given : ∀ e ∈ base, e.2.inserted = false) (grows : Grows base es) :
    (es.filter fun e => !e.2.inserted).map Prod.fst = base.map Prod.fst ∧
      List.Forall₂ Instr.Fills (base.map Prod.snd)
        ((es.filter fun e => !e.2.inserted).map Prod.snd) := by
  induction grows with
  | nil => exact ⟨rfl, .nil⟩
  | @given h i j base es fills rest ih =>
    have stays : j.inserted = false := (Instr.fillsInserted fills).trans (given (h, i) List.mem_cons_self)
    obtain ⟨handles, filled⟩ := ih fun e inside => given e (List.mem_cons_of_mem _ inside)
    rw [List.filter_cons_of_pos (by simp [stays])]
    exact ⟨congrArg (h :: ·) handles, .cons fills filled⟩
  | inserted new line rest ih =>
    rw [List.filter_cons_of_neg (by simp [new])]
    exact ih given

theorem growsHead (grows : Grows ((h, i) :: base) es) : ∃ code j rest, es = code ++ (h, j) :: rest ∧
    (∀ e ∈ code, e.2.inserted = true) ∧ i.Fills j := by
  generalize whole : (h, i) :: base = all at grows
  induction grows with
  | nil => contradiction
  | given fills rest =>
    obtain ⟨⟨rfl, rfl⟩, rfl⟩ := whole
    exact ⟨[], _, _, rfl, by simp, fills⟩
  | @inserted g _ _ x _ es new line rest ih =>
    obtain ⟨code, j, behind, rfl, inserted, fills⟩ := ih whole
    exact ⟨(g, x) :: code, j, behind, rfl, by simpa [new] using inserted, fills⟩

theorem growsFollowed (given : ∀ e ∈ base, e.2.inserted = false)
    (grows : Grows base (before ++ (h, x) :: after)) (new : x.inserted = true) :
    ∃ code g j rest, after = code ++ (g, j) :: rest ∧ (∀ e ∈ code, e.2.inserted = true) ∧
      j.inserted = false ∧ x.line = j.line := by
  generalize whole : before ++ (h, x) :: after = es at grows
  induction grows generalizing before with
  | nil => simp at whole
  | @given g i j base es fills rest ih =>
    have stays : j.inserted = false := (Instr.fillsInserted fills).trans (given (g, i) List.mem_cons_self)
    cases before with
    | nil =>
      obtain ⟨⟨rfl, rfl⟩, rfl⟩ : (h = g ∧ x = j) ∧ after = es := by simpa using whole
      rw [stays] at new
      contradiction
    | cons e before =>
      exact ih (fun e inside => given e (List.mem_cons_of_mem _ inside)) (List.cons.inj whole).2
  | @inserted g g' i y base es _ line rest ih =>
    cases before with
    | nil =>
      obtain ⟨⟨rfl, rfl⟩, rfl⟩ : (h = g ∧ x = y) ∧ after = es := by simpa using whole
      obtain ⟨code, j, behind, rfl, inserted, fills⟩ := growsHead rest
      exact ⟨code, g', j, behind, rfl, inserted,
        (Instr.fillsInserted fills).trans (given (g', i) List.mem_cons_self),
        line.trans (Instr.fillsLine fills).symm⟩
    | cons e before => exact ih given (List.cons.inj whole).2

theorem growsLast (grows : Grows base es) :
    (es.map Prod.fst).getLast? = (base.map Prod.fst).getLast? := by
  induction grows with
  | nil => rfl
  | given fills rest ih => simp only [List.map_cons, List.getLast?_cons, ih]
  | inserted new line rest ih =>
    rw [List.map_cons, List.getLast?_cons, ih]
    simp [List.getLast?_cons]

theorem failsWithin {plan : Plan} {n : Nat} {e : Stop} {steps : List Step} {l m : Ledger}
    (fails : Fails plan n e steps l m) (k live : Nat) : e ≠ .error (.tooFewRegisters k live) := by
  induction fails with
  | later crosses rest ih => exact ih
  | here blocked =>
    have stops : ∃ site l m, Stops plan n site l e m := by
      cases blocked with
      | writing reads writes stops => exact ⟨_, _, _, stops⟩
      | reading unresolved =>
        obtain ⟨-, -, -, m, -, -, -, -, -, stops⟩ := unresolvedStops unresolved
        exact ⟨_, m, _, stops⟩
    obtain ⟨site, l, m, stops⟩ := stops
    cases stops <;> simp

theorem tooFewUntouched {steps : List Step} {summary : Renaming.Summary} {c : Nat} {options : Options}
    {k live : Nat} (spells : b.Spells (steps.map fun s => (s.handle, s.instr)))
    (renames : Renames 0 es steps) (numbered : (envAbove steps).minted ≤ summary.numVirtual)
    (named : summary.numVirtual ≤ Naming.virtual.limit)
    (few : (b.allocateRenamed summary c options).result = .error (.error (.tooFewRegisters k live))) :
    (b.allocateRenamed summary c options).block = b := by
  cases made : Plan.make c summary options with
  | error stop => simp [Block.allocateRenamed, made]
  | ok plan =>
    have limit : Naming.virtual.limit < 9223372036854775808 := by decide
    have cases := allocateRenamedCases spells renames numbered made (Nat.lt_of_le_of_lt named limit)
    rw [few] at cases
    rcases cases with ⟨m, fails, -⟩ | more
    · exact absurd rfl (failsWithin fails k live)
    · exact absurd named (Nat.not_le.mpr more)

end

def Ledger.length (l : Ledger) : Nat := l.done.length + l.rest.length

section
variable {plan : Plan} {n : Nat} {site : Site} {l m k : Ledger} {i : Instr} {slots : List Slot}
  {v : VirtualReg} {p : PhysicalReg} {u : NextUse} {h : Handle} {steps : List Step} {e : Stop}

theorem takesLength (takes : Takes plan site l p m) : m.length ≤ l.length + 2 := by
  cases takes with
  | free => simp [Ledger.length]
  | evicted full held unpinned evicts => cases evicts <;> simp [Ledger.length]; omega

theorem bringsLength (brings : Brings plan site v p u l m) : m.length ≤ l.length + 2 := by
  cases brings <;> simp [Ledger.length] <;> omega

theorem fetchesLength (fetches : Fetches plan site v u l p m) : m.length ≤ l.length + 4 := by
  cases fetches with
  | resident => exact Nat.le_add_right _ _
  | brought away takes brings =>
    have taken := takesLength takes
    have brought := bringsLength brings
    omega

theorem resolveLength (l : Ledger) (slot : Slot) (p : PhysicalReg) (u : NextUse) :
    (l.resolve slot p u).length = l.length := by
  simp [Ledger.length, Ledger.resolve, Ledger.assign]

theorem resolvesLength (resolves : Resolves plan site i slots l m) :
    m.length ≤ l.length + 4 * slots.length := by
  induction resolves with
  | nil => exact Nat.le_add_right _ _
  | cons virtual fetches rest ih =>
    have fetched := fetchesLength fetches
    rw [resolveLength] at ih
    rw [List.length_cons]
    omega

theorem releasesLength (l : Ledger) (vs : List VirtualReg) : (l.releases vs).length = l.length := by
  rw [Ledger.length, (releasesRest l vs).1, (releasesRest l vs).2, Ledger.length]

theorem unpinLength (l : Ledger) : l.unpin.length = l.length := rfl

theorem crossesLength (crosses : Crosses plan h i l k) : k.length ≤ l.length + 10 := by
  obtain @⟨m, _, reads, writes⟩ := crosses
  have few := Opcode.readsAtMostTwo i.opcode
  have read := resolvesLength reads
  rw [unpinLength] at read
  have released : (m.releases i.lastReads).unpin.length = m.length := releasesLength m i.lastReads
  cases writes with
  | nothing => omega
  | @value slot v p k writes virtual takes =>
    have taken := takesLength takes
    have defined : (k.define i slot v p).length = k.length := by
      simp [Ledger.length, Ledger.define, Ledger.assign]
    rw [Ledger.length, (settleRest _ _ _).1, (settleRest _ _ _).2, ← Ledger.length]
    omega

theorem advanceLength (l : Ledger) : l.advance.length = l.length := by
  simp only [Ledger.length, Ledger.advance, List.length_append, List.length_take, List.length_drop]
  omega

theorem walksLength (walks : Walks plan steps l m) : m.length ≤ l.length + 10 * steps.length := by
  induction walks with
  | nil => exact Nat.le_add_right _ _
  | cons crosses rest ih =>
    have crossed := crossesLength crosses
    rw [advanceLength] at ih
    rw [List.length_cons]
    omega

theorem stopsLength (stops : Stops plan n site l e m) : m.length = l.length := by
  cases stops <;> rfl

theorem blockedLength (blocked : Blocked plan n h i l e m) : m.length ≤ l.length + 10 := by
  have few := Opcode.readsAtMostTwo i.opcode
  cases blocked with
  | reading unresolved =>
    obtain ⟨before, slot, after, k, v, split, resolves, -, -, stops⟩ := unresolvedStops unresolved
    have read := resolvesLength resolves
    rw [unpinLength] at read
    rw [split, List.length_append, List.length_cons] at few
    rw [stopsLength stops]
    omega
  | @writing k _ _ reads writes stops =>
    have read := resolvesLength reads
    rw [unpinLength] at read
    have released : (k.releases i.lastReads).unpin.length = k.length := releasesLength k i.lastReads
    rw [stopsLength stops]
    omega

theorem failsLength (fails : Fails plan n e steps l m) : m.length ≤ l.length + 10 * steps.length := by
  induction fails with
  | here blocked =>
    have blocked := blockedLength blocked
    rw [List.length_cons]
    omega
  | later crosses rest ih =>
    have crossed := crossesLength crosses
    rw [advanceLength] at ih
    rw [List.length_cons]
    omega

/-- However an allocation ends, at most ten instructions were inserted for each one. -/
theorem allocatedSize {b : Block} {es : List (Handle × Instr)}
    (spells : b.Spells (steps.map fun s => (s.handle, s.instr))) (renames : Renames 0 es steps)
    (named : (envAbove steps).minted ≤ Naming.virtual.limit) (k : Nat) (options : Options) :
    (b.allocateRenamed (envAbove steps).summary k options).block.size ≤ 11 * b.size := by
  have size : b.size = steps.length := by rw [Chain.spellsSize spells, List.length_map]
  cases made : Plan.make k (envAbove steps).summary options with
  | error stop =>
    simp only [Block.allocateRenamed, made]
    omega
  | ok plan =>
    have limit : Naming.virtual.limit < 9223372036854775808 := by decide
    have cases := allocateRenamedCases spells renames (Nat.le_refl _) made (Nat.lt_of_le_of_lt named limit)
    have start : (Ledger.initial plan steps).length = steps.length := by
      simp [Ledger.length, Ledger.initial]
    cases outcome : (b.allocateRenamed (envAbove steps).summary k options).result with
    | ok output =>
      rw [outcome] at cases
      obtain ⟨m, walks, stage, spelled, -⟩ := cases
      have bound := walksLength walks
      have rest := stage.rest
      rw [List.map_nil] at rest
      rw [Ledger.length, rest, List.length_nil, ← Chain.spellsSize spelled] at bound
      omega
    | error e =>
      rw [outcome] at cases
      rcases cases with ⟨m, fails, spelled⟩ | more
      · have bound := failsLength fails
        rw [Ledger.length, ← List.length_append, ← Chain.spellsSize spelled] at bound
        omega
      · exact absurd named (Nat.not_le.mpr more)

end

structure Adds (b renamed d : Block) : Prop where
  sound : d.Sound
  handles : (d.entries.filter fun e => !e.2.inserted).map Prod.fst = b.handles
  remains : List.Forall₂ Instr.Remains b.values d.given
  fills : List.Forall₂ Instr.Fills renamed.values d.given
  fresh : ∀ e ∈ d.entries, e.2.inserted = true → e.1 ∉ b.handles
  followed : ∀ before h x after, d.entries = before ++ (h, x) :: after → x.inserted = true →
    ∃ code g j rest, after = code ++ (g, j) :: rest ∧ (∀ e ∈ code, e.2.inserted = true) ∧
      j.inserted = false ∧ x.line = j.line
  last : d.last = b.last

theorem remainsAll {is js ks : List Instr} (annotates : List.Forall₂ Renaming.Annotates is js)
    (fills : List.Forall₂ Instr.Fills js ks) : List.Forall₂ Instr.Remains is ks := by
  induction annotates generalizing ks with
  | nil =>
    cases fills
    exact .nil
  | cons first rest ih =>
    cases fills with
    | cons filled fills => exact .cons (Instr.annotatesRemains first filled) (ih fills)

theorem grownAdds {b renamed d : Block} (sound : b.Sound) (renamedSound : renamed.Sound)
    (same : renamed.handles = b.handles) (given : ∀ i ∈ renamed.values, i.inserted = false)
    (annotates : List.Forall₂ Renaming.Annotates b.values renamed.values)
    (grown : Grown renamed.entries d) : Adds b renamed d := by
  obtain ⟨es, spells, grows⟩ := grown
  have entries := Chain.spellsEntries spells
  have handles' := Chain.spellsHandles (Chain.soundSpells renamedSound)
  have given' : ∀ e ∈ renamed.entries, e.2.inserted = false :=
    fun e inside => given e.2 (List.mem_map_of_mem inside)
  obtain ⟨handles, filled⟩ := growsGiven given' grows
  rw [← handles', same] at handles
  have fills : List.Forall₂ Instr.Fills renamed.values d.given := by
    rw [Block.given, Chain.values, Chain.values, entries, List.filter_map]
    exact filled
  refine ⟨Chain.spellsSound spells, by rw [entries]; exact handles, remainsAll annotates fills, fills,
    ?_, ?_, ?_⟩
  · intro e inside new listed
    rw [entries] at inside
    rw [← handles] at listed
    obtain ⟨g, stays, shared⟩ := List.mem_map.mp listed
    obtain ⟨stays, old⟩ := List.mem_filter.mp stays
    obtain rfl := List.inj_on_of_nodup_map spells.linked.nodup stays inside shared
    simp [new] at old
  · rw [entries]
    rintro before h x after rfl new
    exact growsFollowed given' grows new
  · rw [Chain.pathLast spells.linked.path, Chain.pathLast sound.path, growsLast grows, ← handles', same]

theorem allocateAdds {b d : Block} {steps : List Step} (sound : b.Sound)
    (given : ∀ i ∈ b.values, i.inserted = false) (renames : Renames 0 b.entries steps)
    (spells : d.Spells (steps.map fun s => (s.handle, s.instr))) (summary : Renaming.Summary) (k : Nat)
    (options : Options) : Adds b d (d.allocateRenamed summary k options).block := by
  have values := Renaming.renamedValues spells
  refine grownAdds sound (Chain.spellsSound spells) (Renaming.renamedHandles sound renames spells) ?_ ?_
    (allocateGrown (Chain.spellsSound spells) summary k options)
  · rw [values]
    exact Renaming.renamesGiven renames fun e inside => given e.2 (List.mem_map_of_mem inside)
  · rw [values]
    exact Renaming.renamesAnnotates renames

theorem addsSize {b renamed d : Block} (sound : b.Sound) (adds : Adds b renamed d) :
    d.size = b.size + d.numInserted := by
  have kept := congrArg List.length adds.handles
  rw [List.length_map, ← sound.size, ← List.countP_eq_length_filter] at kept
  have split := d.entries.length_eq_countP_add_countP fun e => e.2.inserted
  rw [Chain.spellsSize (Chain.soundSpells adds.sound), split, ← kept, Block.numInserted, Chain.values,
    List.countP_map, Nat.add_comm]
  congr 2
  funext e
  simp

/-- Allocation adds code and fills in physical registers, and does nothing else to a block, whether it
ends or stops. Its walk follows links while they change, and meets the instructions that it was given;
all the handles that it makes are names. With too few registers it does not begin. -/
theorem allocationOnlyAdds (b : Block) (built : b.Built) (given : ∀ i ∈ b.values, i.inserted = false)
    (short : 11 * b.size < 4294967295) (k : Nat) (options : Options) :
    Adds b b.rename.block (b.allocate k options).2.block ∧
      (∀ plan n, Work.allocateAll plan (State.initial b.rename.block plan n) = (do
        b.handles.forM (Work.allocateInstr plan)
        Work.ofExcept ((← get).auditAll plan)) (State.initial b.rename.block plan n)) ∧
      (∀ h < (b.allocate k options).2.block.links.size, Handle.ofNat? h = some h) ∧
      ∀ few live, (b.allocate k options).2.result = .error (.error (.tooFewRegisters few live)) →
        (b.allocate k options).2.block = b.rename.block := by
  have sound := (Chain.builtSound built).1
  obtain ⟨steps, renamed, renames, spells⟩ := b.renameOk sound given (by omega)
  have named := Renaming.renamedNames sound renames (by omega)
  rw [allocateOk renamed]
  refine ⟨allocateAdds sound given renames spells _ k options, fun plan n => ?_, fun h made => ?_,
    fun few live stopped => tooFewUntouched spells renames (Nat.le_refl _) named stopped⟩
  · have start : (State.initial b.rename.block plan n).block.Sound := Chain.spellsSound spells
    rw [allEach start, ← Renaming.renamedHandles sound renames spells]
    rfl
  · have whole := renamedWhole (Chain.alteredWhole (Chain.builtAltered built))
    have full := (allocateWhole whole (envAbove steps).summary k options).full
    have size := allocatedSize spells renames named k options
    rw [Renaming.renamedSize sound renames spells] at size
    exact Handle.ofNatSome (by omega)

theorem spilledSumOnlyAdds :
    Adds spilledSum spilledSum.rename.block (spilledSum.allocate 2 {}).2.block ∧
      (spilledSum.allocate 2 {}).2.result = .error (.error (.tooManyLive 4 5)) ∧
      (spilledSum.allocate 2 {}).2.block.numInserted = 8 :=
  ⟨(allocationOnlyAdds spilledSum (Chain.ofListBuilt _) (by decide +kernel) (by decide +kernel) 2 {}).1,
    by decide +kernel, by decide +kernel⟩

end Allocation
end Straightline
