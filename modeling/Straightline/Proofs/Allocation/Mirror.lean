import Mathlib.Logic.Function.Basic
import Straightline.Proofs.Allocation.Walk
import Straightline.Proofs.CheckSoundness

/-! The checker follows an allocation. After the code that the walk has left behind, the checker finds
in every register the value that the ledger has there, and in every spill slot the value that owns
it. -/
namespace Straightline.Allocation
open Check (Frame)

structure Knows (f : Frame) (pending : List (Option VirtualReg)) (c : Check.State) (v : VirtualReg)
    (x : Value) : Prop where
  slot : ∀ w ∈ x.slot, f.Carries (c.load w) (some v)
  constant : ∀ y ∈ x.constant, f.constants[(some v : Option VirtualReg)]? = some y
  begun : some v ∈ f.defined → x.status = .unknown → some v ∈ pending

def Finds (f : Frame) (c : Check.State) (p : PhysicalReg) (x : Option Occupant) : Prop :=
  ∀ o ∈ x, f.Carries (c.content p) (some o.value)

structure Mirrors (f : Frame) (plan : Plan) (pending : List (Option VirtualReg)) (l : Ledger)
    (c : Check.State) : Prop where
  accepts : f.Accepts {} l.done c
  held : ∀ p, Finds f c p (l.holder p)
  values : ∀ v, Knows f pending c v (l.record v)
  memory : ∀ a ∈ c.memory, ∃ j < l.owners.length, a = plan.slotAt j

structure Fits (f : Frame) (plan : Plan) : Prop where
  usable : f.usable = plan.usable
  address : f.address = plan.address
  next : ∀ a ∈ plan.address, a.number = plan.usable

def Emits (l m : Ledger) : Prop :=
  ∃ code, m.done = l.done ++ code ∧ ∀ e ∈ code, e.2.inserted = true

section
variable {f : Frame} {plan : Plan} {n : Nat} {pending : List (Option VirtualReg)} {site : Site}
  {l m k : Ledger} {c d : Check.State} {spare : List PhysicalReg} {i : Instr} {slots : List Slot}
  {rest : List (Handle × Instr)} {v w : VirtualReg} {p a : PhysicalReg} {u : NextUse} {o : Occupant}

theorem acceptsEmit {es : List (Handle × Instr)} {h : Handle} {i : Instr} (accepts : f.Accepts c es d)
    {e : Check.State} (inserted : i.inserted = true) (runs : f.Inserted d i e) :
    f.Accepts c (es ++ [(h, i)]) e :=
  Frame.acceptsAppend accepts (.cons (Frame.runOfInserted inserted runs) (.nil e))

theorem usableBelow (fits : Fits f plan) (usable : p.number < plan.usable) :
    p.number < f.numRegisters := by
  rw [Frame.numRegisters, fits.usable]
  omega

theorem addressBelow (fits : Fits f plan) (address : plan.address = some a) :
    a.number < f.numRegisters := by
  have number := fits.next a address
  rw [Frame.numRegisters, fits.usable, fits.address, address]
  simp only [Option.isSome_some, ↓reduceIte]
  omega

theorem addressApart (fits : Fits f plan) (address : plan.address = some a)
    (usable : p.number < plan.usable) : p ≠ a := by
  have number := fits.next a address
  rintro rfl
  omega

theorem slotsApart {i j : Nat} (room : plan.options.base.toNat + slotSize * i < 4294967296)
    (less : j < i) : plan.slotAt j ≠ plan.slotAt i := by
  have size : slotSize = 4 := rfl
  intro same
  have numbers := congrArg UInt32.toNat same
  rw [slotNumber room, slotNumber (by rw [size] at room ⊢; omega), size] at numbers
  omega

theorem evictsMirrors (fits : Fits f plan) (sound : Sound plan n l spare)
    (mirrors : Mirrors f plan pending l c) (held : l.holder p = some o)
    (evicts : Evicts plan site o.value p l m) :
    ∃ d, Mirrors f plan pending m d ∧
      ∀ q : PhysicalReg, q.number < plan.usable → d.content q = c.content q := by
  have usable := (sound.tables.held p o held).1
  have value := mirrors.values o.value
  cases evicts with
  | kept cheap =>
    refine ⟨c, ⟨mirrors.accepts, ?_, ?_, mirrors.memory⟩, fun _ _ => rfl⟩
    · exact (Function.forall_update_iff _ (Finds f c)).mpr
        ⟨by simp [Finds], fun q _ => mirrors.held q⟩
    · exact (Function.forall_update_iff _ (Knows f pending c)).mpr
        ⟨⟨value.slot, value.constant, by simp⟩, fun w _ => mirrors.values w⟩
  | @stored a h k costly address room =>
    have small : plan.options.base.toNat + slotSize * l.owners.length < 4294967296 := by
      rw [Nat.mul_succ] at room
      omega
    have apart := addressApart fits address usable
    let named := c.write a (.constant (plan.slotAt l.owners.length))
    let d := named.store (plan.slotAt l.owners.length) (named.content p)
    -- Only the address register and the new slot change, and the slot is behind all that are owned.
    have content : ∀ q : PhysicalReg, q.number < plan.usable → d.content q = c.content q := by
      intro q below
      rw [Check.State.contentStore, Check.State.contentWrite,
        if_neg (addressApart fits address below)]
    have load (w : Word) : d.load w =
        if plan.slotAt l.owners.length = w then c.content p else c.load w := by
      rw [Check.State.loadStore, Check.State.loadWrite, Check.State.contentWrite, if_neg apart]
    refine ⟨d, ⟨?_, ?_, ?_, ?_⟩, content⟩
    · have below := addressBelow fits address
      refine acceptsEmit (acceptsEmit mirrors.accepts rfl (.constant rfl rfl below)) rfl
        (.store rfl rfl (usableBelow fits usable) rfl below (fits.address.trans address) ?_)
      exact (Check.State.contentWrite c a a _).trans (if_pos rfl)
    · refine (Function.forall_update_iff _ (Finds f d)).mpr
        ⟨by simp [Finds], fun q _ o' found => ?_⟩
      rw [content q (sound.tables.held q o' found).1]
      exact mirrors.held q o' found
    · refine (Function.forall_update_iff _ (Knows f pending d)).mpr
        ⟨⟨fun w slot => ?_, value.constant, by simp⟩, fun w _ => ?_⟩
      · rw [load, if_pos (Option.some.inj slot)]
        exact mirrors.held p o held
      · have other := mirrors.values w
        refine ⟨fun x slot => ?_, other.constant, other.begun⟩
        obtain ⟨j, owner, rfl⟩ := (sound.saved.slots w x).mp slot
        have less := (List.getElem?_eq_some_iff.mp owner).1
        rw [load, if_neg (slotsApart small less).symm]
        exact other.slot _ slot
    · intro x inside
      rw [List.length_append, List.length_singleton]
      rcases (Check.State.memStore _ _ _ _).mp inside with rfl | old
      · exact ⟨l.owners.length, by omega, rfl⟩
      · obtain ⟨j, less, same⟩ := mirrors.memory x old
        exact ⟨j, by omega, same⟩

theorem takesMirrors (fits : Fits f plan) (sound : Sound plan n l l.free)
    (mirrors : Mirrors f plan pending l c) (takes : Takes plan site l p m) :
    ∃ d, Mirrors f plan pending m d ∧
      ∀ q : PhysicalReg, q.number < plan.usable → d.content q = c.content q := by
  cases takes with
  | free => exact ⟨c, {mirrors with}, fun _ _ => rfl⟩
  | evicted full held unpinned evicts => exact evictsMirrors fits sound mirrors held evicts

theorem findsPlaced (tables : Tables plan n l spare) (mirrors : Mirrors f plan pending l c)
    (here : f.Carries (d.content p) (some v))
    (others : ∀ q : PhysicalReg, q.number < plan.usable → q ≠ p → d.content q = c.content q) :
    ∀ q, Finds f d q (Function.update l.holder p (some ⟨v, u⟩) q) := by
  refine (Function.forall_update_iff _ (Finds f d)).mpr ⟨fun o same => ?_, fun q other o found => ?_⟩
  · cases same
    exact here
  · rw [others q (tables.held q o found).1 other]
    exact mirrors.held q o found

theorem knowsPlaced {status : Status} (mirrors : Mirrors f plan pending l c)
    (begun : status ≠ .unknown) (load : ∀ w, d.load w = c.load w) :
    ∀ w, Knows f pending d w
      (Function.update l.record v {l.record v with home := some p, status} w) := by
  refine (Function.forall_update_iff _ (Knows f pending d)).mpr ⟨?_, fun w _ => ?_⟩
  · have value := mirrors.values v
    refine ⟨fun x slot => ?_, value.constant, fun _ unknown => absurd unknown begun⟩
    rw [load]
    exact value.slot x slot
  · have other := mirrors.values w
    refine ⟨fun x slot => ?_, other.constant, other.begun⟩
    rw [load]
    exact other.slot x slot

theorem bringsMirrors (fits : Fits f plan) (sound : Sound plan n l (p :: spare))
    (mirrors : Mirrors f plan pending l c) (written : some v ∉ pending)
    (brings : Brings plan site v p u l m) :
    ∃ d, Mirrors f plan pending m d ∧
      ∀ q : PhysicalReg, q.number < plan.usable → q ≠ p → d.content q = c.content q := by
  have usable := ((sound.tables.empty p).mp List.mem_cons_self).1
  have value := mirrors.values v
  cases brings with
  | @remade y h constant =>
    have content (q : PhysicalReg) : (c.write p (.constant y)).content q =
        if q = p then .constant y else c.content q := Check.State.contentWrite c p q _
    have others : ∀ q : PhysicalReg, q.number < plan.usable → q ≠ p →
        (c.write p (.constant y)).content q = c.content q := fun q _ other => by
      rw [content, if_neg other]
    refine ⟨c.write p (.constant y), ⟨?_, findsPlaced sound.tables mirrors ?_ others,
      knowsPlaced mirrors (by simp) fun _ => rfl, mirrors.memory⟩, others⟩
    · exact acceptsEmit mirrors.accepts rfl (.constant rfl rfl (usableBelow fits usable))
    · rw [content, if_pos rfl]
      exact fun _ => by simp [Frame.holds, value.constant y constant]
  | adopted varies new =>
    refine ⟨c, ⟨mirrors.accepts, findsPlaced sound.tables mirrors ?_ fun _ _ _ => rfl,
      knowsPlaced mirrors (by simp) fun _ => rfl, mirrors.memory⟩, fun _ _ _ => rfl⟩
    -- A value that was never placed is not one that an earlier instruction wrote.
    exact fun defined => absurd (value.begun defined new) written
  | @reloaded a w h k varies saved slot address =>
    let named := c.write a (.constant w)
    let d := named.write p (named.load w)
    have content (q : PhysicalReg) : d.content q =
        if q = p then c.load w else if q = a then .constant w else c.content q := by
      rw [Check.State.contentWrite, Check.State.contentWrite]
      rfl
    have others : ∀ q : PhysicalReg, q.number < plan.usable → q ≠ p → d.content q = c.content q := by
      intro q below other
      rw [content, if_neg other, if_neg (addressApart fits address below)]
    refine ⟨d, ⟨?_, findsPlaced sound.tables mirrors ?_ others,
      knowsPlaced mirrors (by simp) fun _ => rfl, mirrors.memory⟩, others⟩
    · have below := addressBelow fits address
      refine acceptsEmit (acceptsEmit mirrors.accepts rfl (.constant rfl rfl below)) rfl
        (.load rfl rfl below (fits.address.trans address) ?_ rfl (usableBelow fits usable))
      exact (Check.State.contentWrite c a a _).trans (if_pos rfl)
    · rw [content, if_pos rfl]
      exact value.slot w slot

theorem fetchesMirrors (fits : Fits f plan) (reading : Reading plan n l)
    (mirrors : Mirrors f plan pending l c) (written : some v ∉ pending)
    (fetches : Fetches plan site v u l p m) :
    ∃ d, Mirrors f plan pending m d ∧
      ∀ q, l.pinned.contains q = true → d.content q = c.content q := by
  cases fetches with
  | resident => exact ⟨c, mirrors, fun _ _ => rfl⟩
  | brought away takes brings =>
    have unpinned := takesUnpinned reading.sound reading.pins takes
    obtain ⟨d, taken, same⟩ := takesMirrors fits reading.sound mirrors takes
    obtain ⟨e, brought, same'⟩ :=
      bringsMirrors fits (takesSound reading.sound takes) taken written brings
    refine ⟨e, brought, fun q pinned => ?_⟩
    obtain ⟨o, held⟩ := Option.ne_none_iff_exists'.mp (reading.pins q pinned)
    have usable := (reading.sound.tables.held q o held).1
    have other : q ≠ p := fun here => by simp [here, unpinned] at pinned
    rw [same' q usable other, same q usable]

theorem resolveMirrors (mirrors : Mirrors f plan pending l c) (slot : Slot) (p : PhysicalReg)
    (u : NextUse) : Mirrors f plan pending (l.resolve slot p u) c := by
  refine ⟨mirrors.accepts, (Function.forall_update_iff _ (Finds f c)).mpr ⟨?_, fun q _ =>
    mirrors.held q⟩, mirrors.values, mirrors.memory⟩
  intro o found
  obtain ⟨o', held, rfl⟩ := Option.map_eq_some_iff.mp found
  exact mirrors.held p o' held

theorem releaseMirrors (mirrors : Mirrors f plan pending l c) (v : VirtualReg) :
    Mirrors f plan pending (l.release v) c := by
  unfold Ledger.release
  split
  · have value := mirrors.values v
    exact ⟨mirrors.accepts, (Function.forall_update_iff _ (Finds f c)).mpr
      ⟨by simp [Finds], fun q _ => mirrors.held q⟩, (Function.forall_update_iff _ (Knows f pending c)).mpr
      ⟨⟨value.slot, value.constant, value.begun⟩, fun w _ => mirrors.values w⟩, mirrors.memory⟩
  · exact mirrors

theorem resolvesMirrors {j : Instr} (fits : Fits f plan)
    (known : ∀ slot ∈ slots, ∀ v, (i.operand slot).virtual = some v → v.number < n)
    (resolves : Resolves plan site i slots l m) (distinct : slots.Nodup) (reading : Reading plan n l)
    (written : ∀ slot ∈ slots, (i.operand slot).virtual ∉ pending)
    (mirrors : Mirrors f plan pending l c) (houses : i.Houses j)
    (head : l.rest = (site.handle, j) :: rest) :
    ∃ d j', Mirrors f plan pending m d ∧ i.Houses j' ∧ m.rest = (site.handle, j') :: rest ∧
      (∀ slot ∉ slots, j'.operand slot = j.operand slot) ∧
      (∀ q, l.pinned.contains q = true → d.content q = c.content q) ∧
      ∀ slot ∈ slots, ∃ p, f.Placed j' slot p ∧ f.Carries (d.content p) (j'.operand slot).virtual := by
  induction resolves generalizing c j with
  | nil => exact ⟨c, j, mirrors, houses, head, fun _ _ => rfl, fun _ _ => rfl, by simp⟩
  | @cons slot slots v p l m k virtual fetches rest ih =>
    obtain ⟨once, distinct⟩ := List.nodup_cons.mp distinct
    have bound := known slot List.mem_cons_self v virtual
    obtain ⟨d, fetched, same⟩ := fetchesMirrors fits reading mirrors
      (virtual ▸ written slot List.mem_cons_self) fetches
    obtain ⟨sound, u, held⟩ := fetchesSound reading.sound bound fetches
    have usable := (sound.tables.held p _ held).1
    obtain ⟨e, j', resolved, houses', rest', others, kept, placed⟩ :=
      ih (fun slot inside => known slot (List.mem_cons_of_mem _ inside)) distinct
        (fetchesReading reading bound fetches slot)
        (fun slot inside => written slot (List.mem_cons_of_mem _ inside))
        (resolveMirrors fetched slot p _) (Instr.housesSet houses slot p)
        (resolveRest ((fetchesRest fetches).1.trans head))
    -- An operand that is resolved is pinned: the later ones leave its register as it is.
    have pinned (q : PhysicalReg) (inside : l.pinned.contains q = true ∨ p = q) :
        e.content q = d.content q := by
      refine kept q ?_
      simp only [Ledger.resolve, RegisterSet.containsInsert, (fetchesRest fetches).2]
      simpa using inside
    refine ⟨e, j', resolved, houses', rest', fun slot' outside => ?_, fun q inside => ?_, ?_⟩
    · have other : slot' ≠ slot := fun here => outside (here ▸ List.mem_cons_self)
      rw [others slot' fun inside => outside (List.mem_cons_of_mem _ inside), Instr.setPhysical,
        Instr.operandSetOther _ _ other]
    · rw [pinned q (.inl inside), same q inside]
    · intro slot' inside
      rcases List.mem_cons.mp inside with rfl | later
      · refine ⟨p, ⟨?_, ?_, ?_⟩, ?_⟩
        · rw [others slot' once, Instr.setPhysical, Instr.operandSetSame]
        · rw [fits.address]
          exact fun address => addressApart fits address usable rfl
        · rwa [fits.usable]
        · rw [houses'.virtual, virtual, pinned p (.inr rfl)]
          exact fetched.held p _ held
      · exact placed slot' later

theorem releaseAdvance (l : Ledger) (v : VirtualReg) :
    (l.release v).advance = l.advance.release v := by
  unfold Ledger.release
  rw [show (l.advance.record v).home = (l.record v).home from rfl]
  split <;> rfl

theorem settleMirrors {l : Ledger} (mirrors : Mirrors f plan pending l.advance c) (v : VirtualReg)
    (u : NextUse) : Mirrors f plan pending (l.settle v u).advance c := by
  unfold Ledger.settle
  split
  · rw [releaseAdvance]
    exact releaseMirrors mirrors v
  · exact mirrors

theorem advanceAccepts {h : Handle} {j : Instr} (accepts : f.Accepts {} l.done c)
    (head : l.rest = (h, j) :: rest) (given : j.inserted = false) (runs : f.Given c j d) :
    f.Accepts {} l.advance.done d := by
  simp only [Ledger.advance, head, List.take_succ_cons, List.take_zero]
  exact Frame.acceptsAppend accepts (.cons ((Frame.runGivenOk given).mpr runs) (.nil d))

theorem defineMirrors {slot : Slot} (new : l.record v = {}) (mirrors : Mirrors f plan (some v :: pending) l c)
    (accepts : f.Accepts {} (l.define i slot v p).advance.done (c.write p (.value (some v))))
    (constant : i.opcode = .loadI → f.constants[(some v : Option VirtualReg)]? = some i.constant) :
    Mirrors f plan pending (l.define i slot v p).advance (c.write p (.value (some v))) := by
  have content (q : PhysicalReg) : (c.write p (.value (some v))).content q =
      if q = p then .value (some v) else c.content q := Check.State.contentWrite c p q _
  refine ⟨accepts, ?_, ?_, mirrors.memory⟩
  · refine (Function.forall_update_iff _ (Finds f _)).mpr ⟨fun o same => ?_, fun q other o found => ?_⟩
    · cases same
      rw [content, if_pos rfl]
      exact fun _ => by simp [Frame.holds]
    · rw [content, if_neg other]
      exact mirrors.held q o found
  · refine (Function.forall_update_iff _ (Knows f pending _)).mpr ⟨⟨?_, ?_, by simp⟩, fun w other => ?_⟩
    · simp [new]
    · intro y same
      simp only at same
      split at same
      · rename_i opcode
        rw [constant opcode]
        exact same
      · contradiction
    · have value := mirrors.values w
      refine ⟨value.slot, value.constant, fun defined unknown => ?_⟩
      rcases List.mem_cons.mp (value.begun defined unknown) with same | later
      · exact absurd (Option.some.inj same) other
      · exact later

theorem givenWrites {j : Instr} {slot : Slot} (fits : Fits f plan) (houses : i.Houses j)
    (writes : i.opcode.writes = some slot) (virtual : (i.operand slot).virtual = some v)
    (usable : p.number < plan.usable)
    (placed : ∀ slot ∈ i.opcode.reads,
      ∃ q, f.Placed j slot q ∧ f.Carries (c.content q) (j.operand slot).virtual) :
    f.Given c (j.setPhysical slot p) (c.write p (.value (some v))) := by
  have houses' := Instr.housesSet houses slot p
  refine ⟨fun slot' inside => ?_, fun slot' written => ?_, fun unwritten => ?_⟩
  · rw [houses'.opcode] at inside
    have other : slot' ≠ slot := fun same => Opcode.writtenUnread writes (same ▸ inside)
    have same : (j.setPhysical slot p).operand slot' = j.operand slot' :=
      Instr.operandSetOther _ _ other
    obtain ⟨q, seat, carries⟩ := placed slot' inside
    exact ⟨q, ⟨by rw [same]; exact seat.1, seat.2⟩, by rwa [same]⟩
  · rw [houses'.opcode, writes] at written
    obtain rfl := Option.some.inj written
    refine ⟨p, ⟨?_, ?_, ?_⟩, ?_⟩
    · rw [Instr.setPhysical, Instr.operandSetSame]
    · rw [fits.address]
      exact fun address => addressApart fits address usable rfl
    · rwa [fits.usable]
    · rw [houses'.virtual, virtual]
  · rw [houses'.opcode, writes] at unwritten
    contradiction

theorem crossesMirrors {h : Handle} (fits : Fits f plan) (wants : Wants n i l)
    (sound : Sound plan n l l.free) (head : l.rest = (h, i) :: rest) (given : i.inserted = false)
    (written : ∀ slot ∈ i.opcode.reads,
      (i.operand slot).virtual ∉ (i.writtenReg .virtual).toList ++ pending)
    (constant : ∀ x ∈ i.writtenReg .virtual, i.opcode = .loadI → f.constants[x]? = some i.constant)
    (mirrors : Mirrors f plan ((i.writtenReg .virtual).toList ++ pending) l c)
    (crosses : Crosses plan h i l k) : ∃ d, Mirrors f plan pending k.advance d := by
  obtain ⟨reads, writes⟩ := crosses
  have started : Mirrors f plan ((i.writtenReg .virtual).toList ++ pending) l.unpin c :=
    {mirrors with}
  obtain ⟨d, j, resolved, houses, rest', others, -, placed⟩ := resolvesMirrors fits
    (wantsKnown wants) reads (Opcode.readsDistinct i.opcode) (startReading sound) written started
    (Instr.housesRefl i) head
  have released : Mirrors f plan ((i.writtenReg .virtual).toList ++ pending) _ d :=
    releasesInduct (fun l => Mirrors f plan _ l d) (fun l v mirrors => releaseMirrors mirrors v)
      i.lastReads resolved
  have rest'' := (releasesRest _ i.lastReads).1.trans rest'
  have inserted := houses.inserted.trans given
  cases writes with
  | nothing silent =>
    rw [Instr.writtenRegNone silent] at released
    refine ⟨d, ⟨advanceAccepts released.accepts rest'' inserted ?_, released.held, released.values,
      released.memory⟩⟩
    refine ⟨houses.opcode ▸ placed, fun slot writes => ?_, fun _ => rfl⟩
    rw [houses.opcode, silent] at writes
    contradiction
  | @value slot v p m writes virtual takes =>
    have target : i.writtenReg .virtual = some (some v) := by
      rw [Instr.writtenRegSome writes, Operand.reg, virtual]
    obtain ⟨-, new⟩ := wantsNew wants sound reads writes virtual
    have ready := resolvedSound wants sound reads
    have started : Mirrors f plan ((i.writtenReg .virtual).toList ++ pending) (_ : Ledger).unpin d :=
      {released with}
    rw [target] at started
    obtain ⟨e, taken, same⟩ := takesMirrors fits ready started takes
    have usable := (((takesSound ready takes).tables.empty p).mp List.mem_cons_self).1
    have head' : (m.define i slot v p).rest = (h, j.setPhysical slot p) :: rest := by
      have kept := (takesRest takes).1.trans rest''
      simp [Ledger.define, Ledger.assign, kept]
    -- Taking a register for the target may store a value, but what was read stays in its register.
    have found : ∀ slot ∈ i.opcode.reads,
        ∃ q, f.Placed j slot q ∧ f.Carries (e.content q) (j.operand slot).virtual := by
      intro slot' inside
      obtain ⟨q, seat, carries⟩ := placed slot' inside
      refine ⟨q, seat, ?_⟩
      rwa [same q (fits.usable ▸ seat.2.2)]
    have accepts := advanceAccepts (l := m.define i slot v p) taken.accepts head'
      ((Instr.housesSet houses slot p).inserted.trans given)
      (givenWrites fits houses writes virtual usable found)
    exact ⟨_, settleMirrors (defineMirrors (takesNew ready takes new) taken accepts
      fun opcode => constant _ target opcode) v _⟩

theorem emitsTrans (first : Emits l m) (second : Emits m k) : Emits l k := by
  obtain ⟨code, done, inserted⟩ := first
  obtain ⟨code', done', inserted'⟩ := second
  refine ⟨code ++ code', by rw [done', done, List.append_assoc], fun e inside => ?_⟩
  rcases List.mem_append.mp inside with earlier | later
  · exact inserted e earlier
  · exact inserted' e later

theorem emitsSame (same : m.done = l.done) : Emits l m := ⟨[], by rw [same, List.append_nil], by simp⟩

theorem takesEmits (takes : Takes plan site l p m) : Emits l m := by
  cases takes with
  | free => exact emitsSame rfl
  | evicted full held unpinned evicts =>
    cases evicts with
    | kept => exact emitsSame rfl
    | stored => exact ⟨_, List.append_assoc _ _ _, by simp [Instr.insertedLoadI, Instr.insertedStore]⟩

theorem bringsEmits (brings : Brings plan site v p u l m) : Emits l m := by
  cases brings with
  | remade => exact ⟨_, rfl, by simp [Instr.insertedLoadI]⟩
  | adopted => exact emitsSame rfl
  | reloaded => exact ⟨_, List.append_assoc _ _ _, by simp [Instr.insertedLoadI, Instr.insertedLoad]⟩

theorem resolvesEmits (resolves : Resolves plan site i slots l m) : Emits l m := by
  induction resolves with
  | nil => exact emitsSame rfl
  | cons virtual fetches rest ih =>
    cases fetches with
    | resident => exact ih
    | brought away takes brings =>
      exact emitsTrans (takesEmits takes) (emitsTrans (bringsEmits brings) ih)

theorem crossesEmits {h : Handle} (crosses : Crosses plan h i l k) : Emits l k := by
  cases crosses with
  | @mk r _ reads writes =>
    have released : Emits l (r.releases i.lastReads).unpin :=
      emitsTrans (resolvesEmits (l := l.unpin) reads) (emitsSame (releasesRest r i.lastReads).2)
    cases writes with
    | nothing => exact released
    | @value slot v p m writes virtual takes =>
      refine emitsTrans released (emitsTrans (takesEmits takes) (emitsSame ?_))
      exact (settleRest (m.define i slot v p) v _).2

end

open Renaming (Step Renames)

section
variable {f : Frame} {plan : Plan} {n position : Nat} {l m : Ledger} {c : Check.State}
  {es : List (Handle × Instr)} {steps : List Step}

theorem walksMirrors (fits : Fits f plan) (renames : Renames position es steps)
    (given : ∀ e ∈ es, e.2.inserted = false) (stage : Stage plan n steps l)
    (numbered : (Renaming.envAbove steps).minted ≤ n)
    (constants : ∀ i ∈ steps.map Step.instr, ∀ v ∈ i.writtenReg .virtual, i.opcode = .loadI →
      f.constants[v]? = some i.constant)
    (mirrors : Mirrors f plan (writtenRegs .virtual (steps.map Step.instr)) l c)
    (walks : Walks plan steps l m) : ∃ d, Mirrors f plan [] m d := by
  induction walks generalizing position es c with
  | nil => exact ⟨c, mirrors⟩
  | @cons s steps l k m crosses rest ih =>
    have stage' := crossesStage renames stage numbered crosses
    have wants := stageWants renames stage numbered
    have written := @Renaming.renamesWritten _ _ _ renames
    rw [List.map_cons, writtenRegsCons] at mirrors
    cases renames with
    | @cons _ h i j env es _ inRange pass later =>
      have flows := Renaming.renamesFlows pass later
      have unread : ∀ slot ∈ j.opcode.reads, (j.operand slot).virtual ∉
          (j.writtenReg .virtual).toList ++ writtenRegs .virtual (steps.map Step.instr) := by
        intro slot read inside
        obtain ⟨v, virtual, live, -⟩ := flows.read slot read
        rw [virtual] at inside
        obtain ⟨w, same, -, dead⟩ := written (by rw [List.map_cons, writtenRegsCons]; exact inside)
        obtain rfl := Option.some.inj same
        exact dead live
      obtain ⟨d, next⟩ := crossesMirrors fits wants stage.sound stage.rest
        (pass.relabels.inserted.trans (given (h, i) List.mem_cons_self)) unread
        (constants j List.mem_cons_self) mirrors crosses
      exact ih later (fun e inside => given e (List.mem_cons_of_mem _ inside)) stage'
        (Nat.le_trans pass.minted.1 numbered)
        (fun i inside => constants i (List.mem_cons_of_mem _ inside)) next

theorem givenAdvance {h : Handle} {i : Instr} {k : Ledger} {rest : List (Handle × Instr)}
    (given : i.inserted = false) (head : l.rest = (h, i) :: rest) (crosses : Crosses plan h i l k) :
    ∃ j, i.Houses j ∧ Check.givenOf k.advance.done = Check.givenOf l.done ++ [j] := by
  obtain ⟨j, houses, rest⟩ := crossesHouses crosses head
  obtain ⟨code, done, inserted⟩ := crossesEmits crosses
  refine ⟨j, houses, ?_⟩
  have none : Check.givenOf code = [] := by
    refine List.filter_eq_nil_iff.mpr fun i inside => ?_
    obtain ⟨e, listed, rfl⟩ := List.mem_map.mp inside
    simp [inserted e listed]
  simp only [Check.givenOf, Ledger.advance, rest, done, List.take_succ_cons, List.take_zero,
    List.map_append, List.filter_append] at none ⊢
  rw [none]
  simp [houses.inserted, given]

theorem walksGiven (renames : Renames position es steps) (given : ∀ e ∈ es, e.2.inserted = false)
    (stage : Stage plan n steps l) (numbered : (Renaming.envAbove steps).minted ≤ n)
    (walks : Walks plan steps l m) :
    ∃ js, Check.givenOf m.done = Check.givenOf l.done ++ js ∧
      List.Forall₂ Instr.Houses (steps.map Step.instr) js := by
  induction walks generalizing position es with
  | nil => exact ⟨[], by simp, .nil⟩
  | @cons s steps l k m crosses rest ih =>
    have stage' := crossesStage renames stage numbered crosses
    cases renames with
    | @cons _ h i j env es _ inRange pass later =>
      have original := pass.relabels.inserted.trans (given (h, i) List.mem_cons_self)
      obtain ⟨j', houses, done⟩ := givenAdvance original stage.rest crosses
      obtain ⟨js, done', housed⟩ := ih later (fun e inside => given e (List.mem_cons_of_mem _ inside))
        stage' (Nat.le_trans pass.minted.1 numbered)
      exact ⟨j' :: js, by rw [done', done, List.append_assoc]; rfl, .cons houses housed⟩

end
end Straightline.Allocation
