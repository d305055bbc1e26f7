import Straightline.Proofs.Allocation.Additions

/-! The accounts of an allocation. A store or a reload puts two instructions in and a recomputation
one, and there are as many spill slots as stores. Of the values that were evicted, those not brought
back yet are the clean ones of open ranges that are in no register; at the end of the block no range is
open, so every value that was evicted has been brought back, and what was stored has been reloaded. -/
namespace Straightline.Allocation
open Renaming (Env Step Renames Flows envAbove)

structure Books (l : Ledger) : Prop where
  inserted : l.stats.inserted = 2 * l.stats.stores + 2 * l.stats.restores + l.stats.recomputations
  stores : l.stats.stores = l.owners.length
  evicted : l.stats.stores ≤ l.stats.evictions
  code : l.done.countP (·.2.inserted) = l.stats.inserted
  unknown : ∀ v, (l.record v).status = .unknown → (l.record v).constant = none

structure Owes (wanted : VirtualReg → Prop) (l : Ledger) (owed : List VirtualReg) : Prop where
  nodup : owed.Nodup
  away : ∀ v, v ∈ owed ↔ wanted v ∧ (l.record v).home = none ∧ (l.record v).status = .clean
  balance : l.stats.evictions = l.stats.restores + l.stats.recomputations + owed.length
  stored : l.stats.stores ≤ l.stats.restores + owed.countP fun v => (l.record v).slot.isSome

section
variable {plan : Plan} {n position : Nat} {site : Site} {l m k : Ledger} {i : Instr}
  {slots : List Slot} {v w : VirtualReg} {p : PhysicalReg} {u : NextUse} {h : Handle}
  {es : List (Handle × Instr)} {s : Step} {steps : List Step} {wanted : VirtualReg → Prop}
  {owed : List VirtualReg}

theorem resolvesInduct (motive : Ledger → Prop)
    (takes : ∀ {l m p}, Takes plan site l p m → motive l → motive m)
    (brings : ∀ {l m v p u}, Brings plan site v p u l m → motive l → motive m)
    (resolve : ∀ l slot p u, motive l → motive (l.resolve slot p u))
    (resolves : Resolves plan site i slots l m) (start : motive l) : motive m := by
  induction resolves with
  | nil => exact start
  | cons virtual fetches rest ih =>
    refine ih (resolve _ _ _ _ ?_)
    cases fetches with
    | resident => exact start
    | brought away taken brought => exact brings brought (takes taken start)

theorem definesInduct (motive : Ledger → Prop)
    (takes : ∀ {l m p}, Takes plan site l p m → motive l → motive m)
    (release : ∀ l v, motive l → motive (l.release v))
    (define : ∀ l slot v p, motive l → motive (l.define i slot v p))
    (defines : Defines plan site i l k) (start : motive l) : motive k := by
  cases defines with
  | nothing => exact start
  | @value slot v p m writes virtual taken =>
    have defined := define m slot v p (takes taken start)
    unfold Ledger.settle
    split
    · exact release _ v defined
    · exact defined

theorem crossesInduct (motive : Ledger → Prop)
    (takes : ∀ {l m p}, Takes plan ⟨h, i.line⟩ l p m → motive l → motive m)
    (brings : ∀ {l m v p u}, Brings plan ⟨h, i.line⟩ v p u l m → motive l → motive m)
    (resolve : ∀ l slot p u, motive l → motive (l.resolve slot p u))
    (unpin : ∀ l, motive l → motive l.unpin) (release : ∀ l v, motive l → motive (l.release v))
    (define : ∀ l slot v p, motive l → motive (l.define i slot v p))
    (crosses : Crosses plan h i l k) (start : motive l) : motive k := by
  obtain ⟨reads, writes⟩ := crosses
  have resolved := resolvesInduct motive takes brings resolve reads (unpin l start)
  have released := unpin _ (releasesInduct motive release i.lastReads resolved)
  exact definesInduct motive takes release define writes released

theorem takesBooks (takes : Takes plan site l p m) (books : Books l) : Books m := by
  have unknown : ∀ v, (m.record v).status = .unknown → (m.record v).constant = none := by
    intro v new
    rcases takesRecord takes v with same | ⟨-, -, clean, -⟩
    · rw [same] at new ⊢
      exact books.unknown v new
    · rw [clean] at new
      contradiction
  have inserted := books.inserted
  have stores := books.stores
  have evicted := books.evicted
  have code := books.code
  cases takes with
  | free => exact {books with}
  | evicted full held unpinned evicts =>
    cases evicts with
    | kept => exact ⟨inserted, stores, Nat.le_succ_of_le evicted, code, unknown⟩
    | stored =>
      refine ⟨?_, ?_, Nat.succ_le_succ evicted, ?_, unknown⟩
      · simp only
        omega
      · simp [stores]
      · simp [List.countP_append, code, Instr.insertedLoadI, Instr.insertedStore]

theorem bringsBooks (brings : Brings plan site v p u l m) (books : Books l) : Books m := by
  have unknown : ∀ w, (m.record w).status = .unknown → (m.record w).constant = none := by
    intro w new
    by_cases same : w = v
    · subst same
      cases brings <;> simp at new
    · rw [bringsRecord brings same] at new ⊢
      exact books.unknown w new
  have inserted := books.inserted
  have code := books.code
  cases brings with
  | adopted => exact {books with unknown}
  | remade =>
    refine ⟨?_, books.stores, books.evicted, ?_, unknown⟩
    · simp only
      omega
    · simp [List.countP_append, code, Instr.insertedLoadI]
  | reloaded =>
    refine ⟨?_, books.stores, books.evicted, ?_, unknown⟩
    · simp only
      omega
    · simp [List.countP_append, code, Instr.insertedLoadI, Instr.insertedLoad]

theorem releaseBooks (l : Ledger) (v : VirtualReg) (books : Books l) : Books (l.release v) := by
  unfold Ledger.release
  split
  · refine {books with unknown := fun w => ?_}
    by_cases same : w = v
    · subst same
      simpa using books.unknown w
    · simpa [Function.update_of_ne same] using books.unknown w
  · exact books

theorem defineBooks (l : Ledger) (i : Instr) (slot : Slot) (v : VirtualReg) (p : PhysicalReg)
    (books : Books l) : Books (l.define i slot v p) := by
  refine {books with unknown := fun w => ?_}
  by_cases same : w = v
  · subst same
    simp [Ledger.define]
  · simpa [Ledger.define, Function.update_of_ne same] using books.unknown w

theorem crossesBooks (crosses : Crosses plan h i l k) (books : Books l) : Books k :=
  crossesInduct Books takesBooks bringsBooks (fun _ _ _ _ books => {books with})
    (fun _ books => {books with}) releaseBooks (fun l => defineBooks l i) crosses books

theorem advanceBooks (renames : Renames position es (s :: steps))
    (given : ∀ e ∈ es, e.2.inserted = false)
    (rest : l.rest = (s :: steps).map fun s => (s.handle, s.instr))
    (crosses : Crosses plan s.handle s.instr l k) (books : Books l) : Books k.advance := by
  have crossed := crossesBooks crosses books
  obtain ⟨j', houses, rest'⟩ := crossesHouses crosses rest
  cases renames with
  | @cons _ h i j env es _ inRange pass below =>
    have original : j'.inserted = false := by
      rw [houses.inserted, pass.relabels.inserted]
      exact given (h, i) List.mem_cons_self
    refine {crossed with code := ?_}
    simp [Ledger.advance, rest', List.countP_append, original, crossed.code]

theorem resolvesPinned (known : ∀ slot ∈ slots, ∀ v, (i.operand slot).virtual = some v → v.number < n)
    (resolves : Resolves plan site i slots l m) (reading : Reading plan n l)
    {q : PhysicalReg} (pinned : l.pinned.contains q = true) (held : l.holder q = some ⟨w, u⟩) :
    m.pinned.contains q = true ∧ ∃ u, m.holder q = some ⟨w, u⟩ := by
  induction resolves generalizing u with
  | nil => exact ⟨pinned, u, held⟩
  | @cons slot slots v p l k m virtual fetches rest ih =>
    have known' := known _ List.mem_cons_self _ virtual
    have kept := (fetchesHolder reading fetches pinned).trans held
    have pinned' : (k.resolve slot p (i.operand slot).nextUse).pinned.contains q = true := by
      rw [Ledger.resolve, RegisterSet.containsInsert, (fetchesRest fetches).2, pinned, Bool.true_or]
    have later := fun u => ih (u := u) (fun slot inside => known slot (List.mem_cons_of_mem _ inside))
      (fetchesReading reading known' fetches _) pinned'
    by_cases here : q = p
    · subst here
      exact later (i.operand slot).nextUse (by simp [Ledger.resolve, kept])
    · exact later u (by simp [Ledger.resolve, Function.update_of_ne here, kept])

theorem resolvesPresent (known : ∀ slot ∈ slots, ∀ v, (i.operand slot).virtual = some v → v.number < n)
    (resolves : Resolves plan site i slots l m) (reading : Reading plan n l) {slot : Slot}
    (inside : slot ∈ slots) (virtual : (i.operand slot).virtual = some v) :
    ∃ q u, m.pinned.contains q = true ∧ m.holder q = some ⟨v, u⟩ := by
  induction resolves with
  | nil => contradiction
  | @cons slot' slots v' p l k m virtual' fetches rest ih =>
    have known' := known _ List.mem_cons_self _ virtual'
    have reading' := fetchesReading reading known' fetches slot'
    have later := fun slot inside => known slot (List.mem_cons_of_mem _ inside)
    rcases List.mem_cons.mp inside with rfl | inside
    · rw [virtual] at virtual'
      obtain rfl := Option.some.inj virtual'
      obtain ⟨-, u, held⟩ := fetchesSound reading.sound known' fetches
      have pinned : (k.resolve slot p (i.operand slot).nextUse).pinned.contains p = true := by
        simp [Ledger.resolve, RegisterSet.containsInsert]
      have placed : (k.resolve slot p (i.operand slot).nextUse).holder p =
          some ⟨v, (i.operand slot).nextUse⟩ := by simp [Ledger.resolve, held]
      obtain ⟨pinned', u', held'⟩ := resolvesPinned later rest reading' pinned placed
      exact ⟨p, u', pinned', held'⟩
    · exact ih later reading' inside

theorem readPresent (wants : Wants n i l) (sound : Sound plan n l l.free)
    (resolves : Resolves plan site i i.opcode.reads l.unpin m)
    (read : some v ∈ i.readRegs .virtual) :
    ∃ q u, m.pinned.contains q = true ∧ m.holder q = some ⟨v, u⟩ := by
  obtain ⟨slot, inside, virtual⟩ := Instr.memReadRegs.mp read
  exact resolvesPresent (wantsKnown wants) resolves (startReading sound) inside virtual

theorem writtenNew (wants : Wants n i l) (sound : Sound plan n l l.free)
    (resolves : Resolves plan site i i.opcode.reads l.unpin m)
    (written : i.writtenReg .virtual = some (some v)) :
    v.number < n ∧ (m.releases i.lastReads).unpin.record v = {} := by
  obtain ⟨slot, writes, virtual⟩ := Instr.memWrittenReg.mp written
  exact wantsNew wants sound resolves writes virtual

theorem owedSlots (same : ∀ w ∈ owed, m.record w = l.record w) :
    (owed.countP fun v => (m.record v).slot.isSome) = owed.countP fun v => (l.record v).slot.isSome :=
  List.countP_congr fun w inside => by rw [same w inside]

theorem takesOwes (sound : Sound plan n l l.free)
    (resident : ∀ w, (l.record w).home ≠ none → wanted w) (takes : Takes plan site l p m)
    (owes : Owes wanted l owed) : ∃ owed, Owes wanted m owed := by
  cases takes with
  | free => exact ⟨owed, {owes with}⟩
  | @evicted o _ full held unpinned evicts =>
    have home := (sound.tables.home o.value p).mpr ⟨o.nextUse, held⟩
    have new : o.value ∉ owed := fun inside => by
      have none := ((owes.away o.value).mp inside).2.1
      rw [home] at none
      contradiction
    have others : ∀ w, w ≠ o.value → m.record w = l.record w := by
      intro w other
      cases evicts <;> exact Function.update_of_ne other _ _
    refine ⟨o.value :: owed, List.nodup_cons.mpr ⟨new, owes.nodup⟩, fun w => ?_, ?_, ?_⟩
    · rw [List.mem_cons]
      by_cases same : w = o.value
      · subst same
        have gone : (m.record o.value).home = none ∧ (m.record o.value).status = .clean := by
          cases evicts <;> simp
        simp [gone, resident o.value (by simp [home])]
      · simp [others w same, same, owes.away w]
    · have balance := owes.balance
      cases evicts <;> simp only [List.length_cons] <;> omega
    · have stored := owes.stored
      rw [List.countP_cons, owedSlots fun w inside => others w fun same => new (same ▸ inside)]
      cases evicts with
      | kept => simp only; omega
      | stored => simp only [Function.update_self, Option.isSome_some, if_true]; omega

theorem bringsOwes (books : Books l) (kept : (l.record v).Kept) (wants : wanted v) (ready : l.Ready v)
    (away : (l.record v).home = none) (brings : Brings plan site v p u l m)
    (owes : Owes wanted l owed) : ∃ owed, Owes wanted m owed := by
  have balance := owes.balance
  have home := bringsHome brings
  have apart : ∀ w, w ≠ v → m.record w = l.record w := fun w other => bringsRecord brings other
  -- The value is not owed afterwards; whether it was before is what the three ways differ in.
  have others : ∀ owed' : List VirtualReg, (∀ w, w ∈ owed' ↔ w ≠ v ∧ w ∈ owed) → ∀ w, w ∈ owed' ↔
      wanted w ∧ (m.record w).home = none ∧ (m.record w).status = .clean := by
    intro owed' members w
    rw [members]
    by_cases same : w = v
    · subst same
      simp [home]
    · rw [apart w same, ← owes.away w]
      simp [same]
  have repaid : (l.record v).status ≠ .unknown →
      m.stats.evictions + 1 = m.stats.restores + m.stats.recomputations + owed.length →
      m.stats.stores = l.stats.stores →
      l.stats.restores + (if (l.record v).slot.isSome then 1 else 0) ≤ m.stats.restores →
      ∃ owed, Owes wanted m owed := by
    intro known count stores restores
    have clean : (l.record v).status = .clean := by
      cases status : (l.record v).status with
      | clean => rfl
      | unknown => exact absurd status known
      | dirty => exact absurd status (ready away)
    have inside := (owes.away v).mpr ⟨wants, away, clean⟩
    refine ⟨owed.erase v, owes.nodup.erase v, others _ fun w => owes.nodup.mem_erase_iff, ?_, ?_⟩
    · have length := List.length_erase_of_mem inside
      have some := List.length_pos_of_mem inside
      omega
    · have stored := owes.stored
      have counted := (List.perm_cons_erase inside).countP_eq fun v => (l.record v).slot.isSome
      rw [owedSlots fun w listed => apart w (owes.nodup.mem_erase_iff.mp listed).1]
      rw [List.countP_cons] at counted
      omega
  cases brings with
  | adopted varies new =>
    have unowed : v ∉ owed := fun inside => by
      have clean := ((owes.away v).mp inside).2.2
      rw [new] at clean
      contradiction
    refine ⟨owed, owes.nodup, others owed fun w => ?_, balance, ?_⟩
    · exact ⟨fun inside => ⟨fun same => unowed (same ▸ inside), inside⟩, fun both => both.2⟩
    · rw [owedSlots fun w inside => apart w fun same => unowed (same ▸ inside)]
      exact owes.stored
  | remade constant =>
    -- A constant is in no slot, so no store waits for it.
    have slotless : ¬ (l.record v).slot.isSome := fun slot => by simp [(kept.slot slot).2] at constant
    refine repaid (fun new => ?_) (by simp only; omega) rfl (by simp [slotless])
    rw [books.unknown v new] at constant
    contradiction
  | reloaded varies saved =>
    refine repaid (by simp [saved]) (by simp only; omega) rfl ?_
    split <;> simp only <;> omega

structure Serves (plan : Plan) (n : Nat) (wanted : VirtualReg → Prop) (l : Ledger) : Prop where
  reading : Reading plan n l
  books : Books l
  resident : ∀ w, (l.record w).home ≠ none → wanted w
  ready : ∀ w, wanted w → l.Ready w
  owes : ∃ owed, Owes wanted l owed

theorem resolvesServes (known : ∀ slot ∈ slots, ∀ v, (i.operand slot).virtual = some v → v.number < n)
    (wants : ∀ slot ∈ slots, ∀ v, (i.operand slot).virtual = some v → wanted v)
    (resolves : Resolves plan site i slots l m) (serves : Serves plan n wanted l) :
    Serves plan n wanted m := by
  induction resolves with
  | nil => exact serves
  | @cons slot slots v p l k m virtual fetches rest ih =>
    have known' := known _ List.mem_cons_self _ virtual
    have wants' := wants _ List.mem_cons_self _ virtual
    refine ih (fun slot inside => known slot (List.mem_cons_of_mem _ inside))
      (fun slot inside => wants slot (List.mem_cons_of_mem _ inside)) ?_
    have reading := fetchesReading serves.reading known' fetches slot
    have resident : ∀ w, (k.record w).home ≠ none → wanted w := by
      intro w home
      rcases fetchesHome fetches home with before | rfl
      · exact serves.resident w before
      · exact wants'
    have ready : ∀ w, wanted w → k.Ready w :=
      fun w wants => fetchesReady fetches (serves.ready w wants)
    obtain ⟨owed, owes⟩ := serves.owes
    cases fetches with
    | resident =>
      exact ⟨reading, {serves.books with}, resident, ready, owed, {owes with}⟩
    | @brought t _ away takes brings =>
      have taken := takesBooks takes serves.books
      have ready' : t.Ready v := by
        rcases takesRecord takes v with same | ⟨-, -, clean, -⟩
        · rw [Ledger.Ready, same]
          exact serves.ready v wants'
        · simp [Ledger.Ready, clean]
      obtain ⟨owed', owes'⟩ := takesOwes serves.reading.sound serves.resident takes owes
      have kept := (takesSound serves.reading.sound takes).saved.kept v
      obtain ⟨owed'', owes''⟩ := bringsOwes taken kept wants' ready' (takesAway takes away) brings owes'
      exact ⟨reading, {bringsBooks brings taken with}, resident, ready, owed'', {owes'' with}⟩

theorem releaseStats (l : Ledger) (v : VirtualReg) : (l.release v).stats = l.stats := by
  unfold Ledger.release
  split <;> rfl

theorem releasesStats (l : Ledger) (vs : List VirtualReg) : (l.releases vs).stats = l.stats :=
  releasesInduct (fun k => k.stats = l.stats) (fun k v same => (releaseStats k v).trans same) vs rfl

theorem settleStats (l : Ledger) (v : VirtualReg) (u : NextUse) : (l.settle v u).stats = l.stats := by
  unfold Ledger.settle
  split
  · exact releaseStats l v
  · rfl

theorem releasesOwes {below above : Env} (flows : Flows below above i)
    (present : ∀ v, some v ∈ i.readRegs .virtual → (m.record v).home ≠ none)
    (new : ∀ v, i.writtenReg .virtual = some (some v) →
      (m.releases i.lastReads).unpin.record v = {})
    (owes : Owes above.Live m owed) : Owes below.Live (m.releases i.lastReads).unpin owed := by
  have same : ∀ v, below.Live v → (m.releases i.lastReads).unpin.record v = m.record v :=
    fun v live => releasesOther fun last => lastReadDead flows last live
  have stats : (m.releases i.lastReads).unpin.stats = m.stats := releasesStats m _
  have old : ∀ v ∈ owed, below.Live v := by
    intro v inside
    obtain ⟨live, home, -⟩ := (owes.away v).mp inside
    rcases flows.origin v live with old | ⟨read, -⟩
    · exact old
    · exact absurd home (present v read)
  refine ⟨owes.nodup, fun v => ?_, by rw [stats]; exact owes.balance, ?_⟩
  · constructor
    · intro inside
      rw [same v (old v inside)]
      exact ⟨old v inside, ((owes.away v).mp inside).2⟩
    · intro away
      obtain ⟨live, home, clean⟩ := away
      rcases flows.kept v live with old | written
      · rw [same v live] at home clean
        exact (owes.away v).mpr ⟨old, home, clean⟩
      · simp [new v written] at clean
  · rw [stats, owedSlots fun v inside => same v (old v inside)]
    exact owes.stored

theorem definesOwes (sound : Sound plan n l l.free)
    (resident : ∀ w, (l.record w).home ≠ none → wanted w)
    (new : ∀ v, i.writtenReg .virtual = some (some v) → l.record v = {})
    (defines : Defines plan site i l k) (owes : Owes wanted l owed) : ∃ owed, Owes wanted k owed := by
  cases defines with
  | nothing => exact ⟨owed, owes⟩
  | @value slot v p m writes virtual takes =>
    obtain ⟨owed', owes'⟩ := takesOwes sound resident takes owes
    have fresh := takesNew sound takes (new v (by rw [Instr.writtenRegSome writes, Operand.reg, virtual]))
    have stats : ((m.define i slot v p).settle v (i.operand slot).nextUse).stats = m.stats :=
      settleStats _ v _
    have others : ∀ w, w ≠ v →
        ((m.define i slot v p).settle v (i.operand slot).nextUse).record w = m.record w := by
      intro w other
      rw [settleOther _ other]
      exact Function.update_of_ne other _ _
    refine ⟨owed', owes'.nodup, fun w => ?_, by rw [stats]; exact owes'.balance, ?_⟩
    · rw [owes'.away]
      by_cases same : w = v
      · -- A value just written is dirty, so it is not owed, even if it gave up its register at once.
        subst same
        have dirty : (((m.define i slot w p).settle w (i.operand slot).nextUse).record w).status =
            .dirty := by
          unfold Ledger.settle Ledger.release
          split <;> simp [Ledger.define]
        simp [dirty, fresh]
      · rw [others w same]
    · have unowed : ∀ w ∈ owed', w ≠ v := by
        rintro w inside rfl
        have clean := ((owes'.away w).mp inside).2.2
        simp [fresh] at clean
      rw [stats, owedSlots fun w inside => others w (unowed w inside)]
      exact owes'.stored

theorem crossesOwes (renames : Renames position es (s :: steps)) (stage : Stage plan n (s :: steps) l)
    (numbered : s.env.minted ≤ n) (books : Books l) (crosses : Crosses plan s.handle s.instr l k)
    (owes : Owes s.env.Live l owed) : ∃ owed, Owes (envAbove steps).Live k owed := by
  have wants := stageWants renames stage numbered
  obtain @⟨m, _, reads, writes⟩ := crosses
  cases renames with
  | @cons _ h i j env es _ inRange pass later =>
    have flows := Renaming.renamesFlows pass later
    have resolved := resolvesServes (wantsKnown wants)
      (fun slot inside v virtual => (Renaming.flowsRead flows inside virtual).1) reads
      ⟨startReading stage.sound, {books with}, stage.resident, stage.ready, owed, {owes with}⟩
    obtain ⟨owed', owes'⟩ := resolved.owes
    have present : ∀ v, some v ∈ j.readRegs .virtual → (m.record v).home ≠ none := by
      intro v read
      obtain ⟨q, u, -, held⟩ := readPresent wants stage.sound reads read
      simp [(resolved.reading.sound.tables.home v q).mpr ⟨u, held⟩]
    have new := fun v written => (writtenNew (v := v) wants stage.sound reads written).2
    exact definesOwes (resolvedSound wants stage.sound reads)
      (fun w home => (resolvedResident flows stage.resident reads home).2) new writes
      (releasesOwes flows present new owes')

theorem walksBooks (renames : Renames position es steps) (given : ∀ e ∈ es, e.2.inserted = false)
    (stage : Stage plan n steps l) (numbered : (envAbove steps).minted ≤ n)
    (walks : Walks plan steps l m) (books : Books l) (owes : Owes (envAbove steps).Live l owed) :
    Books m ∧ m.stats.evictions = m.stats.restores + m.stats.recomputations ∧
      m.stats.stores ≤ m.stats.restores := by
  induction walks generalizing position es owed with
  | nil =>
    have none : owed = [] := by
      refine List.eq_nil_iff_forall_not_mem.mpr fun v inside => ?_
      obtain ⟨r, range⟩ := ((owes.away v).mp inside).1
      simp [envAbove] at range
    have balance := owes.balance
    have stored := owes.stored
    rw [none] at balance stored
    exact ⟨books, balance, stored⟩
  | @cons s steps l k m crosses rest ih =>
    have next := crossesStage renames stage numbered crosses
    have books' := advanceBooks renames given stage.rest crosses books
    obtain ⟨owed', owes'⟩ := crossesOwes renames stage numbered books crosses owes
    cases renames with
    | cons inRange pass later =>
      exact ih later (fun e inside => given e (List.mem_cons_of_mem _ inside)) next
        (Nat.le_trans pass.minted.1 numbered) books' {owes' with}

theorem initialBooks (plan : Plan) (steps : List Step) : Books (Ledger.initial plan steps) :=
  ⟨rfl, rfl, Nat.le_refl _, rfl, fun _ _ => rfl⟩

theorem initialOwes (plan : Plan) (steps : List Step) :
    Owes wanted (Ledger.initial plan steps) [] :=
  ⟨List.nodup_nil, by simp [Ledger.initial], rfl, Nat.le_refl _⟩

theorem allocatedBooks {b : Block} {summary : Renaming.Summary} {options : Options} {c : Nat}
    {output : Output} (spells : b.Spells (steps.map fun s => (s.handle, s.instr)))
    (renames : Renames 0 es steps) (given : ∀ e ∈ es, e.2.inserted = false)
    (numbered : (envAbove steps).minted ≤ summary.numVirtual)
    (ok : (b.allocateRenamed summary c options).result = .ok output) :
    ∃ plan m, Plan.make c summary options = .ok plan ∧ Walks plan steps (Ledger.initial plan steps) m ∧
      output = ⟨plan.usable, plan.address, m.owners.length, m.stats⟩ ∧ Books m ∧
      m.stats.evictions = m.stats.restores + m.stats.recomputations ∧
      m.stats.stores ≤ m.stats.restores ∧
      (b.allocateRenamed summary c options).block.numInserted = m.stats.inserted := by
  obtain ⟨plan, m, made, walks, -, spelled, same⟩ := allocatedWalk spells renames numbered ok
  obtain ⟨books, back, reloaded⟩ := walksBooks renames given (initialStage plan _ steps) numbered walks
    (initialBooks plan steps) (initialOwes plan steps)
  refine ⟨plan, m, made, walks, same, books, back, reloaded, ?_⟩
  rw [Block.numInserted, Chain.values, Chain.spellsEntries spelled, List.countP_map, ← books.code]
  rfl

end

theorem accountsBalance (b : Block) (sound : b.Sound) (given : ∀ i ∈ b.values, i.inserted = false)
    (short : 11 * b.size < 4294967295) (k : Nat) (options : Options) (output : Output)
    (ok : (b.allocate k options).2.result = .ok output) :
    output.stats.evictions = output.stats.restores + output.stats.recomputations ∧
      output.slots = output.stats.stores ∧ output.stats.stores ≤ output.stats.restores ∧
      output.stats.inserted =
        2 * output.stats.stores + 2 * output.stats.restores + output.stats.recomputations ∧
      (b.allocate k options).2.block.numInserted = output.stats.inserted ∧
      (b.allocate k options).2.block.size = b.size + output.stats.inserted := by
  obtain ⟨steps, renamed, renames, spells⟩ := b.renameOk sound given (by omega)
  rw [allocateOk renamed] at ok ⊢
  have given' : ∀ e ∈ b.entries, e.2.inserted = false :=
    fun e inside => given e.2 (List.mem_map_of_mem inside)
  obtain ⟨plan, m, -, -, rfl, books, back, reloaded, counted⟩ :=
    allocatedBooks spells renames given' (Nat.le_refl _) ok
  have adds := allocateAdds sound given renames spells (envAbove steps).summary k options
  refine ⟨back, books.stores.symm, reloaded, books.inserted, counted, ?_⟩
  rw [addsSize sound adds, counted]

theorem spilledSumAccounts :
    (spilledSum.allocate 3 {}).2.result = .ok ⟨2, some ⟨2⟩, 2, ⟨3, 2, 2, 1, 9⟩⟩ ∧
      (spilledSum.allocate 3 {}).2.block.numInserted = 9 ∧
      (spilledSum.allocate 3 {}).2.block.size = spilledSum.size + 9 := by
  have ok : (spilledSum.allocate 3 {}).2.result = .ok ⟨2, some ⟨2⟩, 2, ⟨3, 2, 2, 1, 9⟩⟩ := by
    decide +kernel
  obtain ⟨-, -, -, -, inserted, size⟩ := accountsBalance spilledSum (Chain.ofListSound _)
    (by decide +kernel) (by decide +kernel) 3 {} _ ok
  exact ⟨ok, inserted, size⟩

end Straightline.Allocation
