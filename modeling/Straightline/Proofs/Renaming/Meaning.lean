import Straightline.Proofs.Renaming.Ranges

/-! Renaming keeps the meaning of a block. Where a range is open, its virtual register has the word
that the source register has; so every renamed instruction finds what it found before, and the two
runs touch the same addresses, leave the same memory and put out the same words. -/
namespace Straightline.Renaming

structure Follows (env : Env) (x : Machine .source) (y : Machine .virtual) : Prop where
  registers : ∀ (r : Option SourceReg) (v : VirtualReg), env.ranges[r]? = some v →
    y.registers (some v) = x.registers r
  memory : ∀ a, y.memory a = x.memory a
  outputs : y.outputs = x.outputs

variable {position : Nat} {es : List (Handle × Instr)} {steps : List Step}

theorem followsAlike {below above : Env} {i j : Instr} {x : Machine .source} {y : Machine .virtual}
    (pass : Passes position below i j above) (follows : Follows above x y) :
    Machine.Alike x i y j := by
  refine ⟨pass.relabels.opcode, pass.relabels.constant, fun slot inside => ?_⟩
  obtain ⟨v, virtual, range, -⟩ := pass.read slot inside
  simp only [Machine.read, Operand.reg, virtual]
  exact follows.registers _ v range

theorem followsStep (arith : Arithmetic) {below above : Env} {i j : Instr} {x : Machine .source}
    {y : Machine .virtual} (pass : Passes position below i j above) (flows : Flows below above j)
    (follows : Follows above x y) : Follows below (x.step arith i) (y.step arith j) := by
  have alike := followsAlike pass follows
  have memory (a : Word) : (y.step arith j).memory a = (x.step arith i).memory a :=
    Machine.memoryAlike arith (fun _ => False) alike (fun a _ => follows.memory a) a id
  refine ⟨?_, memory, Machine.outputsAlike arith alike (fun a _ => follows.memory a) follows.outputs⟩
  intro r v range
  cases writes : i.opcode.writes with
  | none =>
    have source : i.writtenReg .source = none := Instr.writtenRegNone writes
    have target : j.writtenReg .virtual = none :=
      Instr.writtenRegNone (pass.relabels.opcode ▸ writes)
    have kept := pass.kept r v range (by simp [source])
    simp only [Machine.step, source, target]
    exact follows.registers r v kept
  | some slot =>
    have writes' : j.opcode.writes = some slot := pass.relabels.opcode ▸ writes
    obtain ⟨w, virtual, dead, -, -⟩ := flows.written slot writes'
    have source : i.writtenReg .source = some (i.operand slot).source :=
      Instr.writtenRegSome writes
    have target : j.writtenReg .virtual = some (some w) := by
      rw [Instr.writtenRegSome writes', Operand.reg, virtual]
    simp only [Machine.step, source, target]
    by_cases same : r = (i.operand slot).source
    · have result := Machine.resultAlike arith alike (by simp [writes]) fun a _ => follows.memory a
      obtain rfl : w = v := by
        obtain ⟨w', virtual', -, -, -, there | ⟨free, -⟩⟩ := pass.written slot writes
        · rw [virtual] at virtual'
          cases virtual'
          exact Option.some.inj (there.symm.trans (same ▸ range))
        · rw [← same, range] at free
          contradiction
      rw [same, Function.update_self, Function.update_self, result]
    · have kept := pass.kept r v range (by simpa [source, eq_comm] using same)
      -- The register written is not open above, so no other open range shares its name.
      have apart : (some v : Option VirtualReg) ≠ some w := by
        rintro ⟨⟩
        exact dead ⟨r, kept⟩
      rw [Function.update_of_ne apart, Function.update_of_ne same]
      exact follows.registers r v kept

theorem followsRun (arith : Arithmetic) {x : Machine .source} {y : Machine .virtual}
    (renames : Renames position es steps) (follows : Follows (envAbove steps) x y) :
    Follows {} (x.run arith (es.map Prod.snd)) (y.run arith (steps.map Step.instr)) ∧
      y.accesses arith (steps.map Step.instr) = x.accesses arith (es.map Prod.snd) := by
  induction renames generalizing x y with
  | nil => exact ⟨follows, rfl⟩
  | @cons position h i j env es steps inRange pass rest ih =>
    have flows := renamesFlows pass rest
    have next := ih (followsStep arith pass flows follows)
    refine ⟨next.1, ?_⟩
    simp only [List.map_cons, Machine.accesses, next.2,
      Machine.accessedAlike (followsAlike pass follows)]

theorem openKnown {known : List (Option SourceReg)} (renames : Renames position es steps)
    (reads : ReadsKnown .source known (es.map Prod.snd)) {r : Option SourceReg} {v : VirtualReg}
    (range : (envAbove steps).ranges[r]? = some v) : r ∈ known := by
  induction renames generalizing known with
  | nil => simp [envAbove] at range
  | @cons position h i j env es steps inRange pass rest ih =>
    rcases pass.origin r v range with ⟨old, differ⟩ | ⟨inside, -⟩
    · have later := ih reads.2 old
      rcases List.mem_append.mp later with here | written
      · exact here
      · exact absurd (by simpa using written) differ
    · exact reads.1 r inside

theorem renamedReads {known : List (Option VirtualReg)} (renames : Renames position es steps)
    (live : ∀ v, (envAbove steps).Live v → some v ∈ known) :
    ReadsKnown .virtual known (steps.map Step.instr) := by
  induction renames generalizing known with
  | nil => trivial
  | @cons position h i j env es steps inRange pass rest ih =>
    have flows := renamesFlows pass rest
    refine ⟨?_, ih fun v open' => ?_⟩
    · intro r inside
      obtain ⟨slot, read, rfl⟩ : ∃ slot ∈ j.opcode.reads, (j.operand slot).virtual = r :=
        Instr.memReadRegs.mp inside
      obtain ⟨v, virtual, above, -⟩ := flows.read slot read
      rw [virtual]
      exact live v above
    · rcases flows.kept v open' with above | written
      · exact List.mem_append_left _ (live v above)
      · exact List.mem_append_right _ (by simp [written])

end Straightline.Renaming
