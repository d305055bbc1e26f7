import Mathlib.Data.List.Induction
import Mathlib.Data.Nat.Digits.Defs
import Straightline.Proofs.Source.Verdicts

/-! What the chunks of a line mean, one by one and together. A chunk means an opcode, a constant, a
register or itself, and what the chunks of a line mean makes an operation or does not. -/
namespace Straightline.Source

inductive Chunk where
  | word (letters : List Char)
  | digits (ds : List Char)
  | comma
  | into
  deriving DecidableEq, Repr

def numeral (ds : List Char) : Nat := Nat.ofDigits 10 (ds.reverse.map fun d => d.toNat - '0'.toNat)

inductive Chunk.Means : Chunk → Lexeme → Prop where
  | opcode (op : Opcode) : Means (.word op.mnemonic.toList) (.op op)
  | constant {ds : List Char} {v : Word} (value : numeral ds = v.toNat) :
      Means (.digits ds) (.constant v)
  | register {ds : List Char} {r : SourceReg} (some : ds ≠ []) (all : ∀ d ∈ ds, d.isDigit = true)
      (value : numeral ds = r.number) : Means (.word ('r' :: ds)) (.register r)
  | comma : Means .comma .comma
  | into : Means .into .into

inductive Phrase (line : Nat) : List Lexeme → Instr → Prop where
  | loadI (c : Word) (r : SourceReg) : Phrase line [.op .loadI, .constant c, .into, .register r]
      {line, opcode := .loadI, constant := c, third := {source := some r}}
  | load (a r : SourceReg) : Phrase line [.op .load, .register a, .into, .register r]
      {line, opcode := .load, first := {source := some a}, third := {source := some r}}
  | store (v a : SourceReg) : Phrase line [.op .store, .register v, .into, .register a]
      {line, opcode := .store, first := {source := some v}, third := {source := some a}}
  | arith {op : Opcode} (arith : op ∈ [.add, .sub, .mult, .lshift, .rshift]) (a b r : SourceReg) :
      Phrase line [.op op, .register a, .comma, .register b, .into, .register r]
        {line, opcode := op, first := {source := some a}, second := {source := some b},
          third := {source := some r}}
  | output (c : Word) : Phrase line [.op .output, .constant c] {line, opcode := .output, constant := c}
  | nop : Phrase line [.op .nop] {line, opcode := .nop}

section
variable {op : Opcode} {part : Part} {ws rest : List Lexeme} {v : Word} {r : SourceReg} {line : Nat}
  {i : Instr}

theorem constantOk : constant op ws = .ok (v, rest) ↔ ws = .constant v :: rest := by
  unfold constant
  split
  · simp
  · rename_i other
    exact ⟨nofun, fun same => absurd same (other v rest)⟩

theorem registerOk : register part op ws = .ok (r, rest) ↔ ws = .register r :: rest := by
  unfold register
  split
  · simp
  · rename_i other
    exact ⟨nofun, fun same => absurd same (other r rest)⟩

theorem arrowOk : arrow op ws = .ok rest ↔ ws = .into :: rest := by
  unfold arrow
  split
  · simp
  · rename_i other
    exact ⟨nofun, fun same => absurd same (other rest)⟩

theorem commaOk : comma op ws = .ok rest ↔ ws = .comma :: rest := by
  unfold comma
  split
  · simp
  · rename_i other
    exact ⟨nofun, fun same => absurd same (other rest)⟩

theorem operandsPhrase (read : operands line op ws = .ok (i, [])) : Phrase line (.op op :: ws) i := by
  cases op with
  | loadI =>
    obtain ⟨⟨c, _⟩, first, read⟩ := bindOk.mp read
    obtain ⟨_, second, read⟩ := bindOk.mp read
    obtain ⟨⟨r, _⟩, third, read⟩ := bindOk.mp read
    cases read
    rw [constantOk.mp first, arrowOk.mp second, registerOk.mp third]
    exact .loadI c r
  | load =>
    obtain ⟨⟨a, _⟩, first, read⟩ := bindOk.mp read
    obtain ⟨_, second, read⟩ := bindOk.mp read
    obtain ⟨⟨r, _⟩, third, read⟩ := bindOk.mp read
    cases read
    rw [registerOk.mp first, arrowOk.mp second, registerOk.mp third]
    exact .load a r
  | store =>
    obtain ⟨⟨v, _⟩, first, read⟩ := bindOk.mp read
    obtain ⟨_, second, read⟩ := bindOk.mp read
    obtain ⟨⟨a, _⟩, third, read⟩ := bindOk.mp read
    cases read
    rw [registerOk.mp first, arrowOk.mp second, registerOk.mp third]
    exact .store v a
  | add | sub | mult | lshift | rshift =>
    obtain ⟨⟨a, _⟩, first, read⟩ := bindOk.mp read
    obtain ⟨_, second, read⟩ := bindOk.mp read
    obtain ⟨⟨b, _⟩, third, read⟩ := bindOk.mp read
    obtain ⟨_, fourth, read⟩ := bindOk.mp read
    obtain ⟨⟨r, _⟩, fifth, read⟩ := bindOk.mp read
    cases read
    rw [registerOk.mp first, commaOk.mp second, registerOk.mp third, arrowOk.mp fourth,
      registerOk.mp fifth]
    exact .arith (by decide) a b r
  | output =>
    obtain ⟨⟨c, _⟩, first, read⟩ := bindOk.mp read
    cases read
    rw [constantOk.mp first]
    exact .output c
  | nop =>
    cases read
    exact .nop

theorem operationPhrase : operation line ws = .ok i ↔ Phrase line ws i := by
  constructor
  · intro read
    unfold operation at read
    split at read
    · obtain ⟨⟨j, rest⟩, found, read⟩ := bindOk.mp read
      dsimp only at read
      split at read
      · rename_i empty
        cases read
        rw [List.isEmpty_iff.mp empty] at found
        exact operandsPhrase found
      · contradiction
    · contradiction
  · intro phrase
    cases phrase with
    | arith arith a b r =>
      simp only [List.mem_cons, List.not_mem_nil, or_false] at arith
      rcases arith with rfl | rfl | rfl | rfl | rfl <;> rfl
    | _ => rfl

theorem judgeQuiet {problem : Option LexicalError} {found : Option Instr} :
    (judge line ws problem).diagnostics = [] ∧ (judge line ws problem).instr = found ↔
      problem = none ∧ (ws = [] ∧ found = none ∨ ∃ i, operation line ws = .ok i ∧ found = some i) := by
  have silent : problem.toList.map (fun e => Diagnostic.mk line (.lexical e)) = [] ↔
      problem = none := by
    cases problem <;> simp
  cases ws with
  | nil => simp [judge, silent, operation, eq_comm]
  | cons l ws =>
    cases read : operation line (l :: ws) with
    | ok i => simp [judge, read, silent, eq_comm]
    | error refusal =>
      simp only [judge, read, List.isEmpty_cons]
      by_cases last : refusal.rest = [] <;> simp [last]

end

theorem decimalNumeral (ds : List Char) : decimal ds = numeral ds := by
  induction ds using List.reverseRecOn with
  | nil => rfl
  | append_singleton ds d ih =>
    unfold decimal numeral at *
    rw [List.foldl_append, ih, List.reverse_append, List.reverse_singleton, List.singleton_append,
      List.map_cons, Nat.ofDigits_cons]
    simp only [List.foldl_cons, List.foldl_nil]
    omega

section
variable {word ds : List Char} {l : Lexeme} {op : Opcode}

theorem wordOk {n : Nat} {v : Word} : word? n = some v ↔ n = v.toNat := by
  unfold word?
  split
  · rename_i small
    rw [Option.some.injEq]
    constructor
    · rintro rfl
      exact (UInt32.toNat_ofNat_of_lt small).symm
    · rintro rfl
      exact UInt32.ofNat_toNat
  · rename_i large
    refine ⟨nofun, ?_⟩
    rintro rfl
    exact absurd v.toNat_lt large

theorem readConstantMeans : readConstant ds = .ok l ↔ Chunk.Means (.digits ds) l := by
  unfold readConstant
  rw [decimalNumeral]
  cases found : word? (numeral ds) with
  | some v =>
    have value := wordOk.mp found
    constructor
    · intro read
      cases read
      exact .constant value
    · intro means
      cases means with
      | constant value' => rw [UInt32.toNat_inj.mp (value.symm.trans value')]
  | none =>
    refine ⟨nofun, fun means => ?_⟩
    cases means with
    | constant value =>
      rw [wordOk.mpr value] at found
      contradiction

theorem mnemonicOk : Opcode.ofMnemonic? (String.ofList word) = some op ↔ word = op.mnemonic.toList := by
  constructor
  · intro found
    have same := List.find?_some found
    rw [beq_iff_eq.mp same, String.toList_ofList]
  · rintro rfl
    rw [String.ofList_toList]
    exact Opcode.ofMnemonicMnemonic op

theorem registerUnknown (all : ∀ d ∈ ds, d.isDigit = true) : 'r' :: ds ≠ op.mnemonic.toList := by
  intro same
  cases op <;> simp [Opcode.mnemonic] at same
  subst same
  simp at all

theorem readRegisterMeans : readRegister word ds = .ok l ↔
    ∃ r, l = .register r ∧ ds ≠ [] ∧ (∀ d ∈ ds, d.isDigit = true) ∧ numeral ds = r.number := by
  unfold readRegister
  rw [decimalNumeral]
  split
  · rename_i bad
    refine ⟨nofun, ?_⟩
    rintro ⟨r, -, nonempty, all, -⟩
    simp [nonempty, List.all_eq_true.mpr all] at bad
  · rename_i good
    simp only [Bool.or_eq_true, List.isEmpty_iff, Bool.not_eq_true', not_or,
      Bool.not_eq_false, List.all_eq_true] at good
    cases named : Reg.ofNat? .source (numeral ds) with
    | some r =>
      constructor
      · intro read
        cases read
        exact ⟨r, rfl, good.1, good.2, (Reg.numberOfNat named).symm⟩
      · rintro ⟨r', rfl, -, -, value⟩
        rw [Reg.numberInjective ((Reg.numberOfNat named).trans value)]
    | none =>
      refine ⟨nofun, ?_⟩
      rintro ⟨r, -, -, -, value⟩
      rw [value, Reg.ofNatNumber] at named
      contradiction

theorem meansWord : Chunk.Means (.word word) l ↔ (∃ op, word = op.mnemonic.toList ∧ l = .op op) ∨
    ∃ ds r, word = 'r' :: ds ∧ l = .register r ∧ ds ≠ [] ∧ (∀ d ∈ ds, d.isDigit = true) ∧
      numeral ds = r.number := by
  constructor
  · intro means
    generalize same : Chunk.word word = chunk at means
    cases means with
    | opcode op => exact .inl ⟨op, Chunk.word.inj same, rfl⟩
    | register nonempty all value =>
      exact .inr ⟨_, _, Chunk.word.inj same, rfl, nonempty, all, value⟩
    | constant | comma | into => contradiction
  · rintro (⟨op, rfl, rfl⟩ | ⟨ds, r, rfl, rfl, nonempty, all, value⟩)
    · exact .opcode op
    · exact .register nonempty all value

theorem readWordMeans : readWord word = .ok l ↔ Chunk.Means (.word word) l := by
  rw [meansWord]
  unfold readWord
  cases known : Opcode.ofMnemonic? (String.ofList word) with
  | some op =>
    have spelled := mnemonicOk.mp known
    constructor
    · intro read
      cases read
      exact .inl ⟨op, spelled, rfl⟩
    · rintro (⟨op', spelled', rfl⟩ | ⟨ds, r, named, -, -, all, -⟩)
      · rw [mnemonicOk.mpr spelled'] at known
        cases known
        rfl
      · exact absurd (named.symm.trans spelled) (registerUnknown all)
  | none =>
    have unknown : ∀ op : Opcode, word ≠ op.mnemonic.toList := fun op spelled => by
      rw [mnemonicOk.mpr spelled] at known
      contradiction
    simp only [unknown, false_and, exists_false, false_or]
    split
    · rename_i ds
      rw [readRegisterMeans]
      simp
    · rename_i other
      refine ⟨nofun, ?_⟩
      rintro ⟨ds, r, named, -⟩
      exact absurd named (other ds)

end

end Straightline.Source
