import Mathlib.Data.List.Forall2
import Straightline.Proofs.Entries
import Straightline.Proofs.Source.Lines
import Straightline.Proofs.Source.Phrases

/-! The grammar of a line. A line up to its comment is cut into words, runs of digits, commas and
arrows, as long as they can be, and these make an operation by what they mean. Reading a line finds
exactly this, so a text is accepted when every line of it is an operation or empty, and the block has
the operations in order. -/
namespace Straightline.Source

def beforeComment : List Char → List Char
  | '/' :: '/' :: _ => []
  | c :: cs => c :: beforeComment cs
  | [] => []

inductive Cuts : List Char → List Chunk → Prop where
  | nil : Cuts [] []
  | blank {c : Char} {cs : List Char} {chunks : List Chunk} (blank : c = ' ' ∨ c = '\t' ∨ c = '\r')
      (rest : Cuts cs chunks) : Cuts (c :: cs) chunks
  | comma {cs : List Char} {chunks : List Chunk} (rest : Cuts cs chunks) :
      Cuts (',' :: cs) (.comma :: chunks)
  | into {cs : List Char} {chunks : List Chunk} (rest : Cuts cs chunks) :
      Cuts ('=' :: '>' :: cs) (.into :: chunks)
  | digits {ds cs : List Char} {chunks : List Chunk} (some : ds ≠ []) (all : ∀ d ∈ ds, d.isDigit = true)
      (longest : ∀ c ∈ cs.head?, c.isDigit = false) (rest : Cuts cs chunks) :
      Cuts (ds ++ cs) (.digits ds :: chunks)
  | word {c : Char} {letters cs : List Char} {chunks : List Chunk} (first : c.isAlpha = true)
      (all : ∀ d ∈ letters, d.isAlphanum = true) (longest : ∀ d ∈ cs.head?, d.isAlphanum = false)
      (rest : Cuts cs chunks) : Cuts (c :: letters ++ cs) (.word (c :: letters) :: chunks)

inductive Says (line : Nat) (cs : List Char) : Option Instr → Prop where
  | nothing (cuts : Cuts (beforeComment cs) []) : Says line cs none
  | operation {chunks : List Chunk} {words : List Lexeme} {i : Instr}
      (cuts : Cuts (beforeComment cs) chunks) (means : List.Forall₂ Chunk.Means chunks words)
      (phrase : Phrase line words i) : Says line cs (some i)

section
variable {cs xs ds rest : List Char} {c : Char} {l : Lexeme} {ws : List Lexeme} {chunks : List Chunk}

theorem beforeCommentCons (other : c ≠ '/') :
    beforeComment (c :: cs) = c :: beforeComment cs := by
  simp [beforeComment, other]

theorem beforeCommentRun (others : ∀ d ∈ ds, d ≠ '/') :
    beforeComment (ds ++ cs) = ds ++ beforeComment cs := by
  induction ds with
  | nil => rfl
  | cons d ds ih =>
    rw [List.cons_append, beforeCommentCons (others d List.mem_cons_self),
      ih fun d inside => others d (List.mem_cons_of_mem _ inside), List.cons_append]

theorem beforeCommentInv (same : beforeComment cs = c :: xs) :
    ∃ cs', cs = c :: cs' ∧ beforeComment cs' = xs := by
  unfold beforeComment at same
  split at same
  · contradiction
  · obtain ⟨rfl, later⟩ := List.cons.inj same
    exact ⟨_, rfl, later⟩
  · contradiction

theorem beforeCommentSplit (same : beforeComment cs = ds ++ xs) :
    ∃ cs', cs = ds ++ cs' ∧ beforeComment cs' = xs := by
  induction ds generalizing cs with
  | nil => exact ⟨cs, rfl, same⟩
  | cons d ds ih =>
    obtain ⟨cs', rfl, first⟩ := beforeCommentInv same
    obtain ⟨cs'', rfl, later⟩ := ih first
    exact ⟨cs'', rfl, later⟩

theorem beforeCommentNil (same : beforeComment cs = []) :
    cs = [] ∨ ∃ rest, cs = '/' :: '/' :: rest := by
  unfold beforeComment at same
  split at same
  · exact .inr ⟨_, rfl⟩
  · contradiction
  · exact .inl rfl

theorem beforeCommentHead {p : Char → Bool} (slash : p '/' = false) :
    (∀ c ∈ (beforeComment cs).head?, p c = false) ↔ ∀ c ∈ cs.head?, p c = false := by
  unfold beforeComment
  split <;> simp [slash]

theorem isBlankIff : isBlank c = true ↔ c = ' ' ∨ c = '\t' ∨ c = '\r' := by
  simp [isBlank, or_assoc]

theorem readBlank (blank : isBlank c = true) : read (c :: cs) = read cs := by
  unfold read skipBlanks
  rw [List.dropWhile_cons_of_pos blank]

theorem readSolid (solid : isBlank c = false) (other : c ≠ '/') :
    read (c :: cs) = readHead (c :: cs) := by
  unfold read skipBlanks
  rw [List.dropWhile_cons_of_neg (by simp [solid]), skipCommentOther]
  intro first
  exact absurd (Option.some.inj first) other

theorem readComment (plain : '\n' ∉ cs) : read ('/' :: '/' :: cs) = .textEnd := by
  have ended : read ('/' :: '/' :: cs) = readHead (toLineEnd cs) := rfl
  rw [ended, toLineEndPlain plain]
  rfl

theorem runEnds {p : Char → Bool} (all : ∀ d ∈ ds, p d = true) (longest : ∀ c ∈ cs.head?, p c = false) :
    (ds ++ cs).takeWhile p = ds ∧ (ds ++ cs).dropWhile p = cs := by
  have stops : cs.takeWhile p = [] ∧ cs.dropWhile p = cs := by
    cases cs with
    | nil => exact ⟨rfl, rfl⟩
    | cons c cs => simp [longest c rfl]
  rw [List.takeWhile_append_of_pos all, List.dropWhile_append_of_pos all, stops.1, stops.2,
    List.append_nil]
  exact ⟨rfl, rfl⟩

theorem runApart {p : Char → Bool} (none : [' ', '\t', '\r', '\n', ',', '=', '/'].any p = false)
    (holds : p c = true) : isBlank c = false ∧ c ≠ '\n' ∧ c ≠ ',' ∧ c ≠ '=' ∧ c ≠ '/' := by
  have apart : ∀ d ∈ [' ', '\t', '\r', '\n', ',', '=', '/'], c ≠ d := by
    rintro d inside rfl
    exact List.any_eq_false.mp none c inside holds
  refine ⟨?_, apart _ (by simp), apart _ (by simp), apart _ (by simp), apart _ (by simp)⟩
  rw [Bool.eq_false_iff, ne_eq, isBlankIff]
  rintro (same | same | same)
  all_goals exact apart _ (by simp) same

theorem letterNoDigit (letter : c.isAlpha = true) : c.isDigit = false := by
  have above : 65 ≤ c.toNat := by
    rcases Bool.or_eq_true_iff.mp letter with upper | lower
    · exact UInt32.le_iff_toNat_le.mp (of_decide_eq_true upper).1
    · have above : 'a'.val ≤ c.val := of_decide_eq_true (Bool.and_eq_true_iff.mp lower).1
      exact Nat.le_trans (by decide) (UInt32.le_iff_toNat_le.mp above)
  refine Bool.eq_false_iff.mpr fun digit => ?_
  have below := (Char.isDigit_iff_toNat.mp digit).2
  have nine : '9'.toNat = 57 := rfl
  omega

theorem readDigits (some : ds ≠ []) (all : ∀ d ∈ ds, d.isDigit = true)
    (longest : ∀ c ∈ cs.head?, c.isDigit = false) :
    read (ds ++ cs) = .ofExcept cs (readConstant ds) := by
  obtain ⟨d, ds, rfl⟩ := List.exists_cons_of_ne_nil some
  have first := all d List.mem_cons_self
  obtain ⟨solid, line, comma, equals, slash⟩ := runApart rfl first
  obtain ⟨run, left⟩ := runEnds (fun d inside => all d (List.mem_cons_of_mem _ inside)) longest
  rw [List.cons_append, readSolid solid slash, readHeadPlain line comma equals slash, if_pos first,
    run, left]

theorem readLetters {letters : List Char} (first : c.isAlpha = true)
    (all : ∀ d ∈ letters, d.isAlphanum = true) (longest : ∀ d ∈ cs.head?, d.isAlphanum = false) :
    read (c :: letters ++ cs) = .ofExcept cs (readWord (c :: letters)) := by
  obtain ⟨solid, line, comma, equals, slash⟩ := runApart rfl first
  obtain ⟨run, left⟩ := runEnds all longest
  rw [List.cons_append, readSolid solid slash, readHeadPlain line comma equals slash,
    if_neg (by simp [letterNoDigit first]), if_pos first, run, left]

theorem lineWordsBlank (plain : '\n' ∉ cs) (blank : isBlank c = true) :
    lineWords (c :: cs) = lineWords cs := by
  have same : read (c :: cs) = read cs := readBlank blank
  cases found : read cs with
  | lexeme l rest => rw [lineWordsLexeme found, lineWordsLexeme (same.trans found)]
  | bad e => rw [lineWordsBad found, lineWordsBad (same.trans found)]
  | lineEnd rest => exact absurd found (readWithin plain)
  | textEnd => rw [lineWordsEnd found, lineWordsEnd (same.trans found)]

theorem cutsWords (cuts : Cuts xs chunks) (plain : '\n' ∉ cs) (text : beforeComment cs = xs)
    (means : List.Forall₂ Chunk.Means chunks ws) : lineWords cs = (ws, none) := by
  induction cuts generalizing cs ws with
  | nil =>
    cases means
    rcases beforeCommentNil text with rfl | ⟨rest, rfl⟩
    · exact lineWordsEnd rfl
    · exact lineWordsEnd (readComment fun inside => plain (by simp [inside]))
  | blank blank rest ih =>
    obtain ⟨cs, rfl, text'⟩ := beforeCommentInv text
    have plain' : '\n' ∉ cs := fun inside => plain (List.mem_cons_of_mem _ inside)
    rw [lineWordsBlank plain' (isBlankIff.mpr blank)]
    exact ih plain' text' means
  | comma rest ih =>
    obtain ⟨cs, rfl, text'⟩ := beforeCommentInv text
    cases means with
    | cons first later =>
      cases first
      have read : read (',' :: cs) = .lexeme .comma cs := rfl
      rw [lineWordsLexeme read, ih (fun inside => plain (by simp [inside])) text' later]
  | into rest ih =>
    obtain ⟨cs, rfl, text'⟩ := beforeCommentInv text
    obtain ⟨cs, rfl, text''⟩ := beforeCommentInv text'
    cases means with
    | cons first later =>
      cases first
      have read : read ('=' :: '>' :: cs) = .lexeme .into cs := rfl
      rw [lineWordsLexeme read, ih (fun inside => plain (by simp [inside])) text'' later]
  | digits nonempty all longest rest ih =>
    obtain ⟨cs, rfl, rfl⟩ := beforeCommentSplit text
    cases means with
    | cons first later =>
      have read := readDigits nonempty all ((beforeCommentHead (by decide)).mp longest)
      rw [readConstantMeans.mpr first] at read
      rw [lineWordsLexeme read, ih (fun inside => plain (by simp [inside])) rfl later]
  | word letter all longest rest ih =>
    obtain ⟨cs, rfl, rfl⟩ := beforeCommentSplit text
    cases means with
    | cons first later =>
      have read := readLetters letter all ((beforeCommentHead (by decide)).mp longest)
      rw [readWordMeans.mpr first] at read
      rw [lineWordsLexeme read, ih (fun inside => plain (by simp [inside])) rfl later]

theorem ofExceptLexeme {r : Except LexicalError Lexeme}
    (found : Reading.ofExcept cs r = .lexeme l rest) : r = .ok l ∧ cs = rest := by
  cases r with
  | ok l' =>
    cases found
    exact ⟨rfl, rfl⟩
  | error e => contradiction

theorem ofExceptGoes {r : Except LexicalError Lexeme} : Reading.ofExcept cs r ≠ .textEnd := by
  cases r <;> nofun

theorem beforeCommentLongest {p : Char → Bool} (cs : List Char) (slash : p '/' = false)
    (first : c ≠ '/') :
    beforeComment (c :: cs) = c :: cs.takeWhile p ++ beforeComment (cs.dropWhile p) ∧
      ∀ d ∈ (beforeComment (cs.dropWhile p)).head?, p d = false := by
  have run : ∀ d ∈ c :: cs.takeWhile p, d ≠ '/' := by
    intro d inside same
    rcases List.mem_cons.mp inside with rfl | later
    · exact first same
    · rw [same] at later
      simpa [slash] using List.mem_takeWhile_imp later
  constructor
  · rw [← beforeCommentRun run, List.cons_append, List.takeWhile_append_dropWhile]
  · refine (beforeCommentHead slash).mpr fun d inside => ?_
    have stop := List.head?_dropWhile_not p cs
    rw [Option.mem_def.mp inside] at stop
    simpa using stop

def Reading.Fits (r : Reading) (cs : List Char) : Prop :=
  (∀ l rest, r = .lexeme l rest → ∃ chunk, Chunk.Means chunk l ∧
    ∀ chunks, Cuts (beforeComment rest) chunks → Cuts (beforeComment cs) (chunk :: chunks)) ∧
  (r = .textEnd → Cuts (beforeComment cs) [])

theorem fitsRun {p : Char → Bool} {chunk : Chunk} {r : Except LexicalError Lexeme}
    (means : ∀ l, r = .ok l → Chunk.Means chunk l)
    (cut : ∀ chunks, Cuts (beforeComment (cs.dropWhile p)) chunks →
      Cuts (beforeComment (c :: cs)) (chunk :: chunks)) :
    (Reading.ofExcept (cs.dropWhile p) r).Fits (c :: cs) := by
  refine ⟨fun l rest found => ?_, fun found => absurd found ofExceptGoes⟩
  obtain ⟨read, rfl⟩ := ofExceptLexeme found
  exact ⟨chunk, means l read, cut⟩

theorem readHeadFits (line : c ≠ '\n') (slash : c ≠ '/') : (readHead (c :: cs)).Fits (c :: cs) := by
  by_cases comma : c = ','
  · subst comma
    refine ⟨fun l rest found => ?_, nofun⟩
    cases found
    exact ⟨.comma, .comma, fun chunks cuts => beforeCommentCons slash ▸ .comma cuts⟩
  by_cases equals : c = '='
  · subst equals
    by_cases into : cs.head? = some '>'
    · obtain ⟨cs, rfl⟩ := List.head?_eq_some_iff.mp into
      refine ⟨fun l rest found => ?_, nofun⟩
      cases found
      refine ⟨.into, .into, fun chunks cuts => ?_⟩
      rw [beforeCommentCons slash, beforeCommentCons (by decide)]
      exact .into cuts
    · rw [readHeadEquals into]
      exact ⟨nofun, nofun⟩
  rw [readHeadPlain line comma equals slash]
  by_cases digit : c.isDigit = true
  · rw [if_pos digit]
    refine fitsRun (fun l read => readConstantMeans.mp read) fun chunks cuts => ?_
    obtain ⟨text, longest⟩ := beforeCommentLongest (p := Char.isDigit) cs (by decide) slash
    rw [text]
    refine .digits (List.cons_ne_nil _ _) (fun d inside => ?_) longest cuts
    rcases List.mem_cons.mp inside with rfl | later
    · exact digit
    · exact List.mem_takeWhile_imp later
  rw [if_neg digit]
  by_cases letter : c.isAlpha = true
  · rw [if_pos letter]
    refine fitsRun (fun l read => readWordMeans.mp read) fun chunks cuts => ?_
    obtain ⟨text, longest⟩ := beforeCommentLongest (p := Char.isAlphanum) cs (by decide) slash
    rw [text]
    exact .word letter (fun d inside => List.mem_takeWhile_imp inside) longest cuts
  · rw [if_neg letter]
    exact ⟨nofun, nofun⟩

theorem readSlashFits (plain : '\n' ∉ cs) : (read ('/' :: cs)).Fits ('/' :: cs) := by
  by_cases again : cs.head? = some '/'
  · obtain ⟨cs, rfl⟩ := List.head?_eq_some_iff.mp again
    rw [readComment fun inside => plain (List.mem_cons_of_mem _ inside)]
    exact ⟨nofun, fun _ => .nil⟩
  · have stray : read ('/' :: cs) = .bad .straySlash := by
      unfold read skipBlanks
      rw [List.dropWhile_cons_of_neg (by decide), skipCommentOther (by simpa using again)]
      rfl
    rw [stray]
    exact ⟨nofun, nofun⟩

theorem readFits (plain : '\n' ∉ cs) : (read cs).Fits cs := by
  induction cs with
  | nil => exact ⟨nofun, fun _ => .nil⟩
  | cons c cs ih =>
    obtain ⟨line, plain'⟩ : c ≠ '\n' ∧ '\n' ∉ cs := by simpa [eq_comm] using plain
    by_cases blank : isBlank c = true
    · have slash : c ≠ '/' := by
        rintro rfl
        contradiction
      obtain ⟨words, nothing⟩ := ih plain'
      rw [readBlank blank, Reading.Fits, beforeCommentCons slash]
      refine ⟨fun l rest found => ?_, fun found => .blank (isBlankIff.mp blank) (nothing found)⟩
      obtain ⟨chunk, means, rebuilt⟩ := words l rest found
      exact ⟨chunk, means, fun chunks cuts => .blank (isBlankIff.mp blank) (rebuilt chunks cuts)⟩
    by_cases slash : c = '/'
    · subst slash
      exact readSlashFits plain'
    · rw [readSolid (by simpa using blank) slash]
      exact readHeadFits line slash

theorem wordsCuts (plain : '\n' ∉ cs) (found : lineWords cs = (ws, none)) :
    ∃ chunks, Cuts (beforeComment cs) chunks ∧ List.Forall₂ Chunk.Means chunks ws := by
  fun_induction lineWords cs generalizing ws with
  | case1 cs l rest read ih =>
    obtain ⟨rfl, quiet⟩ := Prod.mk.inj found
    obtain ⟨chunks, cuts, means⟩ := ih (readPlain plain (by rw [read]; rfl)) (Prod.ext rfl quiet)
    obtain ⟨chunk, first, rebuilt⟩ := (readFits plain).1 l rest read
    exact ⟨chunk :: chunks, rebuilt chunks cuts, .cons first means⟩
  | case2 cs e read => cases found
  | case3 cs rest read => exact absurd read (readWithin plain)
  | case4 cs read =>
    cases found
    exact ⟨[], (readFits plain).2 read, .nil⟩

theorem judgeSays {line : Nat} {found : Option Instr} (plain : '\n' ∉ cs) :
    (judgeLine line cs).diagnostics = [] ∧ (judgeLine line cs).instr = found ↔
      Says line cs found := by
  unfold judgeLine
  rcases words : lineWords cs with ⟨ws, problem⟩
  refine judgeQuiet.trans ⟨?_, fun said => ?_⟩
  · rintro ⟨rfl, judged⟩
    obtain ⟨chunks, cuts, means⟩ := wordsCuts plain words
    rcases judged with ⟨rfl, rfl⟩ | ⟨i, phrase, rfl⟩
    · cases means
      exact .nothing cuts
    · exact .operation cuts means (operationPhrase.mp phrase)
  · cases said with
    | nothing cuts =>
      cases words.symm.trans (cutsWords cuts plain rfl .nil)
      exact ⟨rfl, .inl ⟨rfl, rfl⟩⟩
    | operation cuts means phrase =>
      cases words.symm.trans (cutsWords cuts plain rfl means)
      exact ⟨rfl, .inr ⟨_, operationPhrase.mpr phrase, rfl⟩⟩

theorem linesPlain (cs : List Char) :
    (cs.splitOn '\n').length = cs.count '\n' + 1 ∧ ∀ l ∈ cs.splitOn '\n', '\n' ∉ l := by
  by_cases ends : '\n' ∈ cs
  · obtain ⟨first, more, text, plain⟩ := List.eq_append_cons_of_mem ends
    obtain ⟨counted, later⟩ := linesPlain more
    rw [text, splitLine plain]
    constructor
    · rw [List.length_cons, counted, List.count_append, List.count_eq_zero.mpr plain,
        List.count_cons_self]
      omega
    · exact List.forall_mem_cons.mpr ⟨plain, later⟩
  · rw [splitLast ends]
    exact ⟨by rw [List.count_eq_zero.mpr ends]; rfl, by simpa using ends⟩
termination_by cs.length
decreasing_by
  rw [text, List.length_append, List.length_cons]
  omega

end
end Straightline.Source
