import PairScript.Program
import PairScript.Proofs.Parse.Complete
import PairScript.Proofs.Parse.MoveDown
import PairScript.Proofs.Parse.Seam

/-!
# Programs one after the other

A program can be cut between two statements, as a text and as a tree.

* Two texts with a line break between them are read as the statements of the one and then those of
  the other, further down (`compile_concat`).
* Statements that run to their end can be run on their own, and the others after them on the
  machine that they leave (`Eval.run_append`).

`concat_composes` has both.
-/

namespace PairScript

/-! ### Texts -/

/-- Unless the first text has no tokens, those of the second stand in place of its end. -/
theorem Separated.joined {ts after tokens : List Token} {fin : Token}
    (h : Separated ts after tokens) (hfin : fin.kind = .finish)
    (hts : ∀ t ∈ ts, t.kind ≠ .finish) :
    (ts = [] ∧ tokens = after) ∨ Grammar.Joined after (ts ++ [fin]) tokens := by
  have hwithin : ∀ {ts ends tokens : List Token}, (∀ t ∈ ts, t.kind ≠ .finish) →
      Grammar.Joined after ends tokens → Grammar.Joined after (ts ++ ends) (ts ++ tokens) := by
    intro ts ends tokens hts hj
    induction ts with
    | nil => exact hj
    | cons t ts ih =>
      rw [List.forall_mem_cons] at hts
      exact .cons hts.1 (ih hts.2)
  cases h with
  | none => exact .inl ⟨rfl, rfl⟩
  | folded kind =>
    rw [List.forall_mem_append] at hts
    rw [List.append_assoc]
    exact .inr (hwithin hts.1 (.seam (.lineBreak kind (.finish hfin)) kind))
  | broken kind => exact .inr (hwithin hts (.seam (.finish hfin) kind))

theorem compile_eq_ok {source : String} {nodes : List Node} :
    compile source = .ok nodes ↔
      ∃ tokens, tokenize source = .ok tokens ∧ parse tokens = .ok nodes := by
  unfold compile
  cases tokenize source with
  | error f => simp
  | ok tokens => simp

/-- **Two texts with a line break between them** are read as one program after the other. -/
theorem compile_concat {source₁ source₂ : String} {nodes₁ nodes₂ : List Node}
    (h₁ : compile source₁ = .ok nodes₁) (h₂ : compile source₂ = .ok nodes₂)
    (hclosed : endsInComment source₁ = false) :
    compile (source₁ ++ "\n" ++ source₂) =
      .ok (nodes₁ ++ moveDownAll (1 + source₁.toList.count '\n') nodes₂) := by
  obtain ⟨tokens₁, htokens₁, hparse₁⟩ := compile_eq_ok.1 h₁
  obtain ⟨tokens₂, htokens₂, hparse₂⟩ := compile_eq_ok.1 h₂
  obtain ⟨ts, fin, tokens, rfl, hfin, hts, htokens, hseparated⟩ :=
    tokenize_concat htokens₁ htokens₂ hclosed
  obtain ⟨n₁, rest₁, hprogram₁⟩ := parse_sound hparse₁
  obtain ⟨n₂, rest₂, hprogram₂⟩ := parse_sound hparse₂
  have hdown := (hprogram₂.down (k := 1 + source₁.toList.count '\n')).reads
  refine compile_eq_ok.2 ⟨tokens, htokens, ?_⟩
  rcases hseparated.joined hfin hts with ⟨rfl, rfl⟩ | hjoined
  · obtain ⟨rfl, -⟩ := hprogram₁.1.of_spent (.finish hfin)
    exact parse_complete hdown
  · exact parse_complete (hprogram₁.reads.concat hdown hjoined)

/-! ### Trees -/

namespace Eval

/-- Statements that give no signal are the first part of a longer program. -/
theorem program_append {self : Evaluator} {frame : FrameId} {nodes₁ : List Node} {m m₁ : Machine}
    {last v : Value} (h : program self frame last nodes₁ m = .ok v m₁)
    (hreturn : ¬ ∃ w m', sequence self frame nodes₁ m = .ok (.signal (.giveBack w)) m')
    (nodes₂ : List Node) :
    program self frame last (nodes₁ ++ nodes₂) m = program self frame v nodes₂ m₁ := by
  induction nodes₁ generalizing last m with
  | nil =>
    cases h
    rfl
  | cons node nodes₁ ih =>
    cases hnode : self node frame m with
    | error halt m' => simp [program, bind, EStateM.bind, hnode] at h
    | ok outcome m' =>
      simp only [List.cons_append, program, sequence, bind, EStateM.bind, hnode] at h hreturn ⊢
      cases outcome with
      | value w => exact ih h hreturn
      | signal s =>
        cases s with
        | giveBack w => exact absurd ⟨w, m', rfl⟩ hreturn
        | breakOut | continueOn | fallThrough => cases h

/-- The value of the statement before counts only for a program without statements. -/
theorem program_last {self : Evaluator} {frame : FrameId} {nodes : List Node} (h : nodes ≠ [])
    (last last' : Value) : program self frame last nodes = program self frame last' nodes := by
  cases nodes with
  | nil => exact absurd rfl h
  | cons node nodes => rfl

end Eval

/-- **Programs compose by concatenation.**  Two texts that are programs, the first one not ending
inside a comment, are with a line break between them the one program and then the other, moved
down.  Of two trees, the second not empty, the first can be run on its own if it ends without a
fault and without a `return`: the second, on the machine it leaves, gives the result and the
machine of both. -/
theorem concat_composes :
    (∀ (source₁ source₂ : String) (nodes₁ nodes₂ : List Node),
      compile source₁ = .ok nodes₁ → compile source₂ = .ok nodes₂ →
      endsInComment source₁ = false →
      compile (source₁ ++ "\n" ++ source₂) =
        .ok (nodes₁ ++ moveDownAll (1 + source₁.toList.count '\n') nodes₂)) ∧
    ∀ (nodes₁ nodes₂ : List Node) (frame : FrameId) (m m₁ : Machine) (v : Value),
      nodes₂ ≠ [] → Eval.run nodes₁ frame m = .ok v m₁ →
      (¬ ∃ w m', Eval.sequence (Eval.evaluate Eval.ampleFuel) frame nodes₁ m =
        .ok (.signal (.giveBack w)) m') →
      Eval.run (nodes₁ ++ nodes₂) frame m = Eval.run nodes₂ frame m₁ := by
  constructor
  · intro source₁ source₂ nodes₁ nodes₂ h₁ h₂ hclosed
    exact compile_concat h₁ h₂ hclosed
  · intro nodes₁ nodes₂ frame m m₁ v hnodes₂ hrun hreturn
    unfold Eval.run at hrun ⊢
    rw [Eval.program_append hrun hreturn, Eval.program_last hnodes₂ v .null]

/-- A definition on two lines. -/
def pairDefinition : Node :=
  .definition "pair" (.operation "+" [.constant (.int 1) 1, .constant (.int 1) 2] 1) 1

theorem concat_composes_pairDefinition :
    compile ("var pair = 1 +\n1" ++ "\n" ++ "pair") =
        .ok ([pairDefinition] ++ [.reference "pair" 3]) ∧
      ∃ v root m m₁, Eval.standardRoot (Machine.start (.ofInput []) defaultLimit) = .ok root m ∧
        Eval.run [pairDefinition] root m = .ok v m₁ ∧
        Eval.run ([pairDefinition] ++ [.reference "pair" 3]) root m =
          Eval.run [.reference "pair" 3] root m₁ := by
  constructor
  · have htokens₁ : tokenize "var pair = 1 +\n1" = .ok [⟨.name "var", 1⟩, ⟨.name "pair", 1⟩,
        ⟨.symbol "=", 1⟩, ⟨.int 1, 1⟩, ⟨.symbol "+", 1⟩, ⟨.newline, 1⟩, ⟨.int 1, 2⟩,
        ⟨.finish, 2⟩] := by rfl
    have htokens₂ : tokenize "pair" = .ok [⟨.name "pair", 1⟩, ⟨.finish, 1⟩] := by rfl
    have h₁ : compile "var pair = 1 +\n1" = .ok [pairDefinition] := by
      simp only [compile, htokens₁]
      rfl
    have h₂ : compile "pair" = .ok [.reference "pair" 1] := by
      simp only [compile, htokens₂]
      rfl
    have hclosed : endsInComment "var pair = 1 +\n1" = false := by rfl
    have hcount : "var pair = 1 +\n1".toList.count '\n' = 1 := by rfl
    rw [concat_composes.1 _ _ _ _ h₁ h₂ hclosed, hcount]
    rfl
  · refine ⟨_, _, _, _, rfl, rfl, ?_⟩
    refine concat_composes.2 _ _ _ _ _ _ nofun rfl ?_
    rintro ⟨w, m', h⟩
    cases h

end PairScript
