import Straightline.CommandLine.Run
import Straightline.Proofs.Allocation.Rerun
import Straightline.Proofs.Source.LineGrammar

/-! What the command line promises. An input that is read without a complaint is allocated without one,
whichever of three to sixty-four registers it is given: the code that is printed can be read again, it
names those registers only, and the check has nothing to report. Any other input is refused with nothing
printed. -/
namespace Straightline

namespace Source

theorem operandsGiven (line : Nat) (op : Opcode) (words : List Lexeme) :
    (fun r => ({r.1 with inserted := false}, r.2)) <$> operands line op words =
      operands line op words := by
  cases op <;> simp only [operands, map_bind] <;> rfl

theorem operationGiven {line : Nat} {words : List Lexeme} {i : Instr}
    (read : operation line words = .ok i) : i.inserted = false := by
  unfold operation at read
  split at read
  · rename_i op words
    rw [← operandsGiven] at read
    cases found : operands line op words with
    | error r =>
      rw [found] at read
      contradiction
    | ok r =>
      obtain ⟨j, rest⟩ := r
      rw [found] at read
      cases rest with
      | nil =>
        obtain rfl := Except.ok.inj read
        rfl
      | cons => contradiction
  · contradiction

theorem judgeGiven {line : Nat} {words : List Lexeme} {problem : Option LexicalError} {i : Instr}
    (read : (judge line words problem).instr = some i) : i.inserted = false := by
  unfold judge at read
  split at read
  · contradiction
  · split at read
    · rename_i j found
      obtain rfl := Option.some.inj read
      exact operationGiven found
    · contradiction

theorem verdictsLexical (words : List Lexeme) (is : List Item)
    (right : ∀ v ∈ verdicts words is, v.diagnostics = []) : is.filterMap Item.diagnostic? = [] := by
  induction is generalizing words with
  | nil => rfl
  | cons i is ih =>
    cases i with
    | lexeme line l => exact ih (l :: words) right
    | textEnd line => exact ih [] (List.forall_mem_cons.mp right).2
    | lineEnd line problem =>
      obtain ⟨here, later⟩ := List.forall_mem_cons.mp right
      cases problem with
      | none => exact ih [] later
      | some e =>
        simp only [judge, Option.toList_some, List.map_cons, List.map_nil] at here
        split at here
        · contradiction
        · split at here
          · contradiction
          · split at here <;> simp at here

theorem parsedLexical {text : String} {b : Block} (parsed : parse text = .ok b) :
    lexicalDiagnostics text = [] := by
  rw [parseVerdicts] at parsed
  split at parsed
  · rename_i right
    rw [List.isEmpty_iff, diagnosticsVerdicts] at right
    exact verdictsLexical [] _ (List.flatMap_eq_nil_iff.mp right)
  · contradiction

theorem parsedGiven {text : String} {b : Block} (parsed : parse text = .ok b) :
    b.Sound ∧ (∀ i ∈ b.values, i.inserted = false) ∧ b.size ≤ text.toList.count '\n' + 1 := by
  obtain ⟨-, rfl⟩ := (parseLines text b).mp parsed
  have sound := Chain.ofListSound ((numberedLines text).filterMap fun l => (judgeLine l.2 l.1).instr)
  refine ⟨sound, fun i inside => ?_, ?_⟩
  · rw [Chain.ofListValues] at inside
    obtain ⟨l, -, read⟩ := List.mem_filterMap.mp inside
    exact judgeGiven read
  · rw [← Chain.soundLength sound, Chain.ofListValues, ← (linesPlain text.toList).1]
    refine Nat.le_trans (List.length_filterMap_le _ _) ?_
    rw [numberedLines, List.length_zipIdx]

end Source

def Block.NamesBelow (b : Block) (k : Nat) : Prop :=
  ∀ i ∈ b.values, ∀ slot ∈ i.opcode.slots, ∃ r, (i.operand slot).source = some r ∧ r.number < k

namespace Allocation
open Renaming (envAbove)

theorem threeAllocate {b : Block} {k : Nat} (options : Options) (sound : b.Sound)
    (given : ∀ i ∈ b.values, i.inserted = false) (short : 11 * b.size < 4294967295) (three : 3 ≤ k)
    (few : k ≤ 64) (room : ∀ summary, b.rename.result = .ok summary →
      options.base.toNat + 4 * summary.numVirtual ≤ 4294967295) :
    ∃ output, (b.allocate k options).2.result = .ok output ∧
      (b.allocate k options).2.block.check output.usable output.address = .ok [] ∧
      ∃ d, Source.parse ((b.allocate k options).2.block.text .physical) = .ok d ∧ d.NamesBelow k := by
  obtain ⟨steps, renamed, renames, spells⟩ := b.renameOk sound given (by omega)
  have listed : ∀ e ∈ b.entries, e.2.inserted = false :=
    fun e inside => given e.2 (List.mem_map_of_mem inside)
  have named := Renaming.renamedNames sound renames (by omega)
  rw [allocateOk renamed]
  have ends : ∃ output, (b.rename.block.allocateRenamed (envAbove steps).summary k options).result =
      .ok output := by
    rcases Nat.lt_or_ge k (envAbove steps).summary.maxPressure with tight | roomy
    · have ends := tightAllocates spells renames few named (by omega) tight (room _ renamed)
      rw [if_neg (by omega)] at ends
      exact ends
    · exact roomyAllocates spells renames few named (by omega) roomy
  obtain ⟨output, ok⟩ := ends
  obtain ⟨-, c, accepts, -⟩ := allocatedAccepts spells renames listed (Nat.le_refl _) ok
  have reserved := allocatedFew spells renames (Nat.le_refl _) ok
  obtain ⟨plan, m, made, -, -, spelled, -⟩ := allocatedWalk spells renames (Nat.le_refl _) ok
  have within := allocatedWithin spells renames listed (Nat.le_refl _) ok
  obtain ⟨d, parsed, -, -, names⟩ := physicalTextWithin (Chain.spellsSound spelled)
    fun i inside slot used => within i inside slot (Opcode.memSlots.mp used)
  refine ⟨output, ok, ?_, d, parsed, fun i inside slot used => ?_⟩
  · simp only [Block.check, reserved, bind, Except.bind]
    rw [Check.Frame.acceptsErrors.mpr ⟨c, accepts⟩]
  · obtain ⟨x, below, same⟩ := List.mem_map.mp ((names i inside).2 slot used)
    have bound : x < Naming.source.limit :=
      Nat.lt_of_lt_of_le (List.mem_range.mp below) (Nat.le_trans few (by decide))
    exact ⟨⟨⟨x, bound⟩⟩, same.symm.trans (dif_pos bound), List.mem_range.mp below⟩

end Allocation

namespace CommandLine

def Invocation.plain (mode : Mode) (input : String) : Invocation := ⟨mode, false, 1, 32768, input⟩

section
variable {inv : Invocation} {contents : Except ReadError ByteArray} {text : String} {e : ReadError}
  {b : Block}

theorem textFound (text : String) :
    (Except.ok text.toUTF8 : Except ReadError ByteArray).bind textOf = .ok text := by
  have valid : String.fromUTF8? text.toUTF8 = some text := dif_pos text.isValidUTF8
  rw [Except.bind, textOf, valid]

theorem runFound (found : contents.bind textOf = .ok text) : inv.run contents = inv.runText text := by
  rw [Invocation.run, found]

theorem runUnread (unread : contents.bind textOf = .error e) :
    inv.run contents = .failed s!"could not read {inv.input}: {e.message}" := by
  rw [Invocation.run, unread]

theorem parseCode (input : String) (contents : Except ReadError ByteArray) :
    ((Invocation.plain .parse input).run contents).code = 0 ↔
      ∃ text b, contents.bind textOf = .ok text ∧ Source.parse text = .ok b := by
  cases found : contents.bind textOf with
  | error e =>
    rw [runUnread found]
    simp [Outcome.failed, Outcome.code]
  | ok text =>
    rw [runFound found]
    cases parsed : Source.parse text with
    | error ds => simp [Invocation.runText, Invocation.plain, withBlock, parsed, Outcome.code]
    | ok b => simp [Invocation.runText, Invocation.plain, withBlock, parsed, Outcome.code]

theorem scanCode (input : String) (found : contents.bind textOf = .ok text)
    (parsed : Source.parse text = .ok b) : ((Invocation.plain .scan input).run contents).code = 0 := by
  rw [runFound found]
  simp [Invocation.runText, Invocation.plain, scanText, Source.parsedLexical parsed, Outcome.code]

end

def Invocation.allocation (inv : Invocation) (k : Nat) (b : Block) : Allocation :=
  (b.allocate k ⟨inv.verbose, inv.window, inv.base⟩).2

structure Allocates (inv : Invocation) (k : Nat) (b : Block) (outcome : Outcome) : Prop where
  printed : ∃ output, (inv.allocation k b).result = .ok output ∧
    (inv.allocation k b).block.check output.usable output.address = .ok [] ∧
    outcome = .finished 0 ((inv.allocation k b).block.text .physical)
      (if inv.verbose then statistics output else "")
  reread : ∃ d, Source.parse ((inv.allocation k b).block.text .physical) = .ok d ∧ d.NamesBelow k

theorem parsedAllocates {inv : Invocation} {k : Nat} {text : String} {b : Block}
    (mode : inv.mode = .allocate k) (three : 3 ≤ k) (few : k ≤ 64)
    (short : text.toList.count '\n' < 268435456) (parsed : Source.parse text = .ok b)
    (room : ∀ summary, b.rename.result = .ok summary →
      inv.base.toNat + 4 * summary.numVirtual ≤ 4294967295) :
    Allocates inv k b (inv.runText text) := by
  obtain ⟨sound, given, size⟩ := Source.parsedGiven parsed
  obtain ⟨output, ok, checked, reread⟩ := Allocation.threeAllocate ⟨inv.verbose, inv.window, inv.base⟩
    sound given (by omega) three few room
  refine ⟨⟨output, ok, checked, ?_⟩, reread⟩
  simp only [Invocation.runText, mode, withBlock, parsed, allocateBlock, ok, checked,
    Invocation.allocation]
  cases inv.verbose with
  | false => rfl
  | true => rfl

theorem allocatesWhatParses (inv : Invocation) (k : Nat) (mode : inv.mode = .allocate k) (three : 3 ≤ k)
    (few : k ≤ 64) (contents : Except ReadError ByteArray)
    (short : ∀ text, contents.bind textOf = .ok text → text.toList.count '\n' < 268435456)
    (room : ∀ text b summary, contents.bind textOf = .ok text → Source.parse text = .ok b →
      b.rename.result = .ok summary → inv.base.toNat + 4 * summary.numVirtual ≤ 4294967295) :
    let parsed := (Invocation.plain .parse inv.input).run contents
    let scanned := (Invocation.plain .scan inv.input).run contents
    ((inv.run contents).code = 0 ↔ parsed.code = 0) ∧
      (parsed.code = 0 ↔ ∃ text b, contents.bind textOf = .ok text ∧ Source.parse text = .ok b) ∧
      (parsed.code ≠ 0 → ∃ err, inv.run contents = .finished 1 "" err) ∧
      (∀ text b, contents.bind textOf = .ok text → Source.parse text = .ok b →
        Allocates inv k b (inv.run contents)) ∧
      (parsed.code = 0 → scanned.code = 0) := by
  intro parsed scanned
  have reads : parsed.code = 0 ↔ _ := parseCode inv.input contents
  have allocates : ∀ text b, contents.bind textOf = .ok text → Source.parse text = .ok b →
      Allocates inv k b (inv.run contents) := by
    intro text b found read
    rw [runFound found]
    exact parsedAllocates mode three few (short text found) read (room text b · found read)
  have refuses : parsed.code ≠ 0 → ∃ err, inv.run contents = .finished 1 "" err := by
    intro bad
    cases found : contents.bind textOf with
    | error e => exact ⟨_, runUnread found⟩
    | ok text =>
      cases read : Source.parse text with
      | ok b => exact absurd (reads.mpr ⟨text, b, found, read⟩) bad
      | error ds =>
        refine ⟨Source.reportText ds ++ terminated ++ "\n", ?_⟩
        rw [runFound found]
        simp only [Invocation.runText, mode, withBlock, read]
  refine ⟨⟨fun ok => ?_, fun ok => ?_⟩, reads, refuses, allocates, fun ok => ?_⟩
  · by_contra bad
    obtain ⟨err, same⟩ := refuses bad
    have differ : (1 : UInt32) ≠ 0 := by decide
    rw [same] at ok
    exact differ ok
  · obtain ⟨text, b, found, read⟩ := reads.mp ok
    obtain ⟨⟨output, -, -, same⟩, -⟩ := allocates text b found read
    rw [same]
    rfl
  · obtain ⟨text, b, found, read⟩ := reads.mp ok
    exact scanCode inv.input found read

theorem sumAllocatesWhatParses :
    let text := "loadI 1024 => r0\nload r0 => r1\nload r1 => r2\nload r2 => r3\nadd r1, r2 => r4\n" ++
      "mult r4, r3 => r5\nstore r5 => r0\noutput 1024\n"
    let inv : Invocation := ⟨.allocate 3, true, 1, 4294967271, "sum.i"⟩
    Allocates inv 3 Allocation.spilledSum (inv.run (.ok text.toUTF8)) ∧
      ∃ err, inv.run (.ok ⟨#[255]⟩) = .finished 1 "" err := by
  intro text inv
  have found := textFound text
  have parsed : Source.parse text = .ok Allocation.spilledSum := by decide +kernel
  have renamed : Allocation.spilledSum.rename.result = .ok ⟨4, 6, 4⟩ := by decide +kernel
  have few : text.toList.count '\n' < 268435456 := by decide +kernel
  obtain ⟨-, -, -, allocates, -⟩ := allocatesWhatParses inv 3 rfl (by decide) (by decide) (.ok text.toUTF8)
    (fun other same => by
      obtain rfl := Except.ok.inj (found.symm.trans same)
      exact few)
    (fun other b summary same read ran => by
      obtain rfl := Except.ok.inj (found.symm.trans same)
      obtain rfl := Except.ok.inj (parsed.symm.trans read)
      obtain rfl := Except.ok.inj (renamed.symm.trans ran)
      decide +kernel)
  have unread : (Except.ok ⟨#[255]⟩ : Except ReadError ByteArray).bind textOf = .error .notText := by
    decide +kernel
  have none : ∀ text, (Except.ok ⟨#[255]⟩ : Except ReadError ByteArray).bind textOf ≠ .ok text := by
    intro text found
    cases unread.symm.trans found
  obtain ⟨-, reads, refuses, -, -⟩ := allocatesWhatParses inv 3 rfl (by decide) (by decide) (.ok ⟨#[255]⟩)
    (fun text found => absurd found (none text)) fun text _ _ found => absurd found (none text)
  refine ⟨allocates text _ found parsed, refuses fun ok => ?_⟩
  obtain ⟨text, -, found, -⟩ := reads.mp ok
  exact none text found

end CommandLine
end Straightline
