import Straightline.Proofs.Source.LineGrammar

/-! What is wrong with a line shows on that line only. A text set below another one is reported and
read as it would be alone, further down by as many lines as stand above it. -/
namespace Straightline

def Instr.down (above : Nat) (i : Instr) : Instr := {i with line := i.line + above}

namespace Source

def Diagnostic.down (above : Nat) (d : Diagnostic) : Diagnostic := {d with line := d.line + above}

def Verdict.down (above : Nat) (v : Verdict) : Verdict :=
  ⟨v.instr.map (Instr.down above), v.diagnostics.map (Diagnostic.down above)⟩

def refusals (text : String) : List Diagnostic :=
  match parse text with
  | .ok _ => []
  | .error wrong => wrong

def readings (text : String) : List Instr :=
  match parse text with
  | .ok b => b.values
  | .error _ => []

theorem refusalsLines (text : String) : refusals text =
    (numberedLines text).flatMap fun l => (judgeLine l.2 l.1).diagnostics := by
  rw [← (verdictsLines text).1]
  simp only [refusals, parseVerdicts]
  split
  · rename_i ok
    split at ok
    · rename_i none
      exact (List.isEmpty_iff.mp none).symm
    · cases ok
  · rename_i error
    split at error
    · cases error
    · exact (Except.error.inj error).symm

theorem readingsLines {text : String} (right : refusals text = []) : readings text =
    (numberedLines text).filterMap fun l => (judgeLine l.2 l.1).instr := by
  rw [refusalsLines, List.flatMap_eq_nil_iff] at right
  rw [readings, (parseLines text _).mpr ⟨right, rfl⟩]
  exact Chain.ofListValues _

section
variable (above line : Nat)

theorem operandsDown (op : Opcode) (words : List Lexeme) : operands (line + above) op words =
    (fun r => (r.1.down above, r.2)) <$> operands line op words := by
  cases op <;> simp only [operands, map_bind] <;> rfl

theorem operationDown (words : List Lexeme) :
    operation (line + above) words = Instr.down above <$> operation line words := by
  unfold operation
  split
  · rename_i op words
    rw [operandsDown, map_bind, bind_map_left]
    refine bind_congr fun r => ?_
    obtain ⟨i, rest⟩ := r
    cases rest <;> rfl
  · rfl

theorem judgeDown (words : List Lexeme) (problem : Option LexicalError) :
    judge (line + above) words problem = (judge line words problem).down above := by
  have unread : problem.toList.map (fun e => Diagnostic.mk (line + above) (.lexical e)) =
      (problem.toList.map fun e => Diagnostic.mk line (.lexical e)).map (Diagnostic.down above) := by
    rw [List.map_map]
    rfl
  unfold judge
  rw [operationDown, unread]
  cases words.isEmpty with
  | true => rfl
  | false =>
    cases operation line words with
    | ok i => rfl
    | error r =>
      cases rest : r.rest.isEmpty <;>
        simp [Verdict.down, Functor.map, Except.map, rest, Diagnostic.down]

theorem judgeLineDown (cs : List Char) :
    judgeLine (line + above) cs = (judgeLine line cs).down above :=
  judgeDown above line _ _

end

theorem numberedBelow (a b : String) : numberedLines (a ++ "\n" ++ b) = numberedLines a ++
    (numberedLines b).map fun l => (l.1, l.2 + (1 + a.toList.count '\n')) := by
  have chars : (a ++ "\n" ++ b).toList = a.toList ++ '\n' :: b.toList := by
    rw [String.toList_append, String.toList_append, List.append_assoc]
    rfl
  have lines : (a.toList ++ '\n' :: b.toList).splitOn '\n' =
      a.toList.splitOn '\n' ++ b.toList.splitOn '\n' :=
    List.splitOnP_append_cons _ _ (by simp)
  rw [numberedLines, chars, lines, List.zipIdx_append, (linesPlain a.toList).1]
  refine congrArg (numberedLines a ++ ·) (List.ext_getElem? fun p => ?_)
  rw [numberedLines, List.getElem?_map, List.getElem?_zipIdx, List.getElem?_zipIdx, Option.map_map]
  refine congrArg (Option.map · _) (funext fun cs => Prod.ext rfl ?_)
  simp only [Function.comp_apply]
  omega

/-- Two texts one below the other are refused for what is wrong with the upper one and then for what
is wrong with the lower one, and are read as the one and then the other. The numbers of lines stay
words while there are fewer than 4294967294 ends of lines. -/
theorem textsBelowStayApart (a b : String) :
    ((a ++ "\n" ++ b).toList.count '\n' < 4294967294 →
      ∀ t ∈ tokens (a ++ "\n" ++ b), t.line < 4294967296) ∧
      refusals (a ++ "\n" ++ b) =
        refusals a ++ (refusals b).map (Diagnostic.down (1 + a.toList.count '\n')) ∧
      (refusals (a ++ "\n" ++ b) = [] → readings (a ++ "\n" ++ b) =
        readings a ++ (readings b).map (Instr.down (1 + a.toList.count '\n'))) := by
  have refused : refusals (a ++ "\n" ++ b) =
      refusals a ++ (refusals b).map (Diagnostic.down (1 + a.toList.count '\n')) := by
    rw [refusalsLines, refusalsLines, refusalsLines, numberedBelow, List.flatMap_append,
      List.flatMap_map, List.map_flatMap]
    simp only [judgeLineDown, Verdict.down]
  refine ⟨fun short t inside => ?_, refused, fun right => ?_⟩
  · have bound := tokensNumbered (a ++ "\n" ++ b) t inside
    rw [(linesPlain _).1] at bound
    omega
  · have apart := right
    rw [refused, List.append_eq_nil_iff, List.map_eq_nil_iff] at apart
    rw [readingsLines right, readingsLines apart.1, readingsLines apart.2, numberedBelow,
      List.filterMap_append, List.filterMap_map, List.map_filterMap]
    simp only [Function.comp_def, judgeLineDown, Verdict.down]

theorem badNeighboursStayApart :
    ((∀ t ∈ tokens ("nop nop" ++ "\n" ++ "add r1 ?\nload =>"), t.line < 4294967296) ∧
      refusals ("nop nop" ++ "\n" ++ "add r1 ?\nload =>") =
        [⟨1, .grammar (.extra .nop)⟩, ⟨2, .lexical (.invalidChar '?')⟩,
          ⟨2, .grammar (.missing .comma .add)⟩, ⟨3, .grammar (.missing .source .load)⟩]) ∧
      refusals ("nop" ++ "\n" ++ "\nnop") = [] ∧
        readings ("nop" ++ "\n" ++ "\nnop") = [.nop 1, .nop 3] := by
  obtain ⟨words, refused, -⟩ := textsBelowStayApart "nop nop" "add r1 ?\nload =>"
  obtain ⟨-, right, read⟩ := textsBelowStayApart "nop" "\nnop"
  have none : refusals ("nop" ++ "\n" ++ "\nnop") = [] := right.trans (by decide +kernel)
  exact ⟨⟨words (by decide +kernel), refused.trans (by decide +kernel)⟩, none,
    (read none).trans (by decide +kernel)⟩

end Source
end Straightline
