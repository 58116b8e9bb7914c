import ViewUpkeep.Console
import ViewUpkeep.Proofs.Commands
import ViewUpkeep.Proofs.Translation

/-!
Printed values are read back. The text of a value is read as a constant term with that value, unless
the value has the least integer in it, whose magnitude is no literal, or a text with a character
that is quoted by its code point, for which the lexer has no escape. So a printed row can be typed
again as the arguments of a command.
-/
namespace ViewUpkeep

open Lexer

namespace Value

mutual

def literal : Value → Term
  | .bool b => .bool b
  | .int n => .int n
  | .str s => .str s
  | .tuple items => .tuple (literals items)

def literals : List Value → List Term
  | [] => []
  | v :: vs => v.literal :: literals vs

end

mutual

def isLegible : Value → Bool
  | .bool _ => true
  | .int n => n ≠ Int64.minValue
  | .str s => s.toList.all isReadable
  | .tuple items => areLegible items

def areLegible : List Value → Bool
  | [] => true
  | v :: vs => v.isLegible && areLegible vs

end

mutual

theorem print_literal (v : Value) : v.literal.print = v.print := by
  match v with
  | .bool _ | .int _ | .str _ => rfl
  | .tuple items => exact printItems_literals items

theorem printItems_literals (vs : List Value) : Term.printItems (literals vs) = printRow vs := by
  match vs with
  | [] => rfl
  | [v] => simp [literals, Term.printItems, printRow, print_literal v]
  | v :: w :: ws =>
    have htail := printTail_literals (w :: ws)
    simp only [literals] at htail
    simp [literals, Term.printItems, printRow, print_literal v, htail]

theorem printTail_literals (vs : List Value) : Term.printTail (literals vs) = printTail vs := by
  match vs with
  | [] => rfl
  | v :: vs => simp [literals, Term.printTail, printTail, print_literal v, printTail_literals vs]

end

mutual

theorem everywhere_literal {p : Term → Bool} (hp : ∀ v : Value, p v.literal = true) (v : Value) :
    v.literal.everywhere p = true := by
  match v with
  | .bool _ | .int _ | .str _ => exact hp _
  | .tuple items =>
    rw [literal, Term.everywhere, Bool.and_eq_true]
    exact ⟨hp (.tuple items), allEverywhere_literals hp items⟩

theorem allEverywhere_literals {p : Term → Bool} (hp : ∀ v : Value, p v.literal = true)
    (vs : List Value) : Term.allEverywhere p (literals vs) = true := by
  match vs with
  | [] => rfl
  | v :: vs =>
    rw [literals, Term.allEverywhere, Bool.and_eq_true]
    exact ⟨everywhere_literal hp v, allEverywhere_literals hp vs⟩

end

theorem named_literal (v : Value) : v.literal.everywhere Term.isNamed = true :=
  everywhere_literal (fun v => by cases v <;> rfl) v

mutual

theorem isLegible_eq (v : Value) : v.isLegible =
    (v.literal.everywhere Term.isReadable && v.literal.everywhere Term.isInRange) := by
  match v with
  | .bool _ | .str _ => simp [isLegible, literal, Term.everywhere, Term.isReadable, Term.isInRange]
  | .int _ => rfl
  | .tuple items => exact areLegible_eq items

theorem areLegible_eq (vs : List Value) : areLegible vs =
    (Term.allEverywhere Term.isReadable (literals vs) &&
      Term.allEverywhere Term.isInRange (literals vs)) := by
  match vs with
  | [] => rfl
  | v :: vs =>
    simp only [areLegible, literals, Term.allEverywhere, isLegible_eq v, areLegible_eq vs]
    ac_rfl

end

theorem legible_literal_iff {v : Value} : v.literal.Legible ↔ v.isLegible = true := by
  rw [isLegible_eq, Bool.and_eq_true]
  constructor
  · exact fun h => ⟨h.readable, h.inRange⟩
  · exact fun h => ⟨h.1, h.2, everywhere_literal (fun v => by cases v <;> rfl) v⟩

/-! ### The value of the term -/

theorem negate_neg {n : Int64} (h : n ≠ Int64.minValue) : negate (.int (-n)) = .ok (.int n) := by
  have hfit : fitInt (-(-n).toInt) = some n := by
    rw [Term.Grammar.fitInt_eq_some, Term.toInt_neg h]
    omega
  simp only [negate, hfit]

mutual

theorem eval_reread (v : Value) (h : v.isLegible = true) :
    ∃ e, v.literal.reread.closed = .ok e ∧ e.eval [] = .ok v := by
  match v with
  | .bool b => exact ⟨.const (.bool b), rfl, rfl⟩
  | .str s => exact ⟨.const (.str s), rfl, rfl⟩
  | .int n =>
    have hn : n ≠ Int64.minValue := by simpa [isLegible] using h
    by_cases hlt : n.toInt < 0
    · refine ⟨.neg (.const (.int (-n))), ?_, negate_neg hn⟩
      simp only [literal, Term.reread, if_pos hlt]
      rfl
    · refine ⟨.const (.int n), ?_, rfl⟩
      simp only [literal, Term.reread, if_neg hlt]
      rfl
  | .tuple items =>
    obtain ⟨es, hclosed, heval⟩ := evalAll_reread items h
    refine ⟨.tuple es, ?_, ?_⟩
    · simp only [literal, Term.reread, Term.closed, hclosed]
      rfl
    · simp only [Expr.eval, heval]
      rfl

theorem evalAll_reread (vs : List Value) (h : areLegible vs = true) :
    ∃ es, Term.closeds (Term.rereadAll (literals vs)) = .ok es ∧ Expr.evalAll [] es = .ok vs := by
  match vs with
  | [] => exact ⟨[], rfl, rfl⟩
  | v :: vs =>
    rw [areLegible, Bool.and_eq_true] at h
    obtain ⟨e, hclosed, heval⟩ := eval_reread v h.1
    obtain ⟨es, hcloseds, hevals⟩ := evalAll_reread vs h.2
    refine ⟨e :: es, ?_, ?_⟩
    · simp only [literals, Term.rereadAll, Term.closeds, hclosed, hcloseds]
      rfl
    · simp only [Expr.evalAll, heval, hevals]
      rfl

end

theorem constant_reread {v : Value} (h : v.isLegible = true) :
    v.literal.reread.constant = .ok v := by
  obtain ⟨e, hclosed, heval⟩ := eval_reread v h
  rw [Term.constant_of_closed hclosed, heval]
  rfl

theorem constants_reread {row : Row} (h : areLegible row = true) :
    Term.constants (Term.rereadAll (literals row)) = .ok row := by
  induction row with
  | nil => rfl
  | cons v row ih =>
    rw [areLegible, Bool.and_eq_true] at h
    simp only [literals, Term.rereadAll, Term.constants, constant_reread h.1, ih h.2]
    rfl

theorem ofText_print_iff {v : Value} {t : Term} :
    Term.ofText v.print = .ok t ↔ v.isLegible = true ∧ t = v.literal.reread := by
  rw [← print_literal, Term.ofText_print (named_literal v), legible_literal_iff]

theorem executes_command {k : Keyword} {make : String → List Term → Statement}
    (hk : (k, Statement.Grammar.command k make) ∈ Statement.Grammar.alternatives) {name : String}
    (hname : isName name = true) {row : Row} (h : areLegible row = true)
    (run : Console → Row → Console × Except Console.Failure Console.Result)
    (hrun : ∀ c args span, Console.executeStatement c ⟨make name args, span⟩ =
      c.withConstants args (run c)) :
    ∃ s, Script.ofText (k.spelling ++ " " ++ name ++ row.print ++ ";") = .ok [s] ∧
      ∀ c : Console, c.executeStatement s = run c row := by
  have hlegible : (Value.tuple row).literal.Legible := legible_literal_iff.mpr h
  obtain ⟨span, htext⟩ := Script.ofText_command hk hname (named_literal (.tuple row)) hlegible
  have hprint : (Term.tuple (literals row)).print = row.print := print_literal (.tuple row)
  rw [hprint] at htext
  refine ⟨_, htext, fun c => ?_⟩
  rw [hrun, Console.withConstants, constants_reread h]

theorem executes_assignment {name : String} (hname : isName name = true) {key : Row}
    (hkey : areLegible key = true) {v : Value} (hv : v.isLegible = true) :
    ∃ s, Script.ofText ("set " ++ name ++ key.print ++ " = " ++ v.print ++ ";") = .ok [s] ∧
      ∀ c : Console, c.executeStatement s = c.conclude (c.session.assign name key v)
        (.changed ("set " ++ name ++ key.print ++ " = " ++ v.print)) := by
  have hlegible : (Value.tuple key).literal.Legible := legible_literal_iff.mpr hkey
  obtain ⟨span, htext⟩ := Script.ofText_assignment hname (named_literal (.tuple key)) hlegible
    (named_literal v) (legible_literal_iff.mpr hv)
  have hprint : (Term.tuple (literals key)).print = key.print := print_literal (.tuple key)
  rw [hprint, print_literal] at htext
  refine ⟨_, htext, fun c => ?_⟩
  simp only [Console.executeStatement, Console.withConstants, constants_reread hkey,
    constant_reread hv]

/-- Printed values are read back, and printed rows can be typed again: exactly the legible values
are read as terms with that value, and commands with legible rows are carried out with them. -/
theorem print_reads_back (v : Value) (name : String) (row : Row) :
    ((∃ t, Term.ofText v.print = .ok t ∧ t.constant = .ok v) ↔ v.isLegible = true) ∧
    (v.isLegible = false → ∃ e, Term.ofText v.print = .error e) ∧
    (isName name = true → areLegible row = true →
      (∃ s, Script.ofText ("add " ++ name ++ row.print ++ ";") = .ok [s] ∧
        ∀ c : Console, c.executeStatement s =
          c.conclude (c.session.add name row) (.changed ("add " ++ name ++ row.print))) ∧
      (∃ s, Script.ofText ("remove " ++ name ++ row.print ++ ";") = .ok [s] ∧
        ∀ c : Console, c.executeStatement s =
          c.conclude (c.session.remove name row) (.changed ("remove " ++ name ++ row.print))) ∧
      (v.isLegible = true →
        ∃ s, Script.ofText ("set " ++ name ++ row.print ++ " = " ++ v.print ++ ";") = .ok [s] ∧
          ∀ c : Console, c.executeStatement s =
            c.conclude (c.session.assign name row v)
              (.changed ("set " ++ name ++ row.print ++ " = " ++ v.print)))) := by
  have hadd : (Keyword.add, Statement.Grammar.command .add .add) ∈
      Statement.Grammar.alternatives := by simp [Statement.Grammar.alternatives]
  have hremove : (Keyword.remove, Statement.Grammar.command .remove .remove) ∈
      Statement.Grammar.alternatives := by simp [Statement.Grammar.alternatives]
  refine ⟨⟨?_, ?_⟩, ?_, fun hname hrow => ⟨?_, ?_, fun hv => ?_⟩⟩
  · rintro ⟨t, ht, _⟩
    exact (ofText_print_iff.mp ht).1
  · intro hv
    exact ⟨_, ofText_print_iff.mpr ⟨hv, rfl⟩, constant_reread hv⟩
  · intro hv
    cases ht : Term.ofText v.print with
    | error e => exact ⟨e, rfl⟩
    | ok t =>
      rw [(ofText_print_iff.mp ht).1] at hv
      cases hv
  · exact executes_command hadd hname hrow (fun c row =>
      c.conclude (c.session.add name row) (.changed ("add " ++ name ++ row.print))) fun _ _ _ => rfl
  · exact executes_command hremove hname hrow (fun c row =>
      c.conclude (c.session.remove name row) (.changed ("remove " ++ name ++ row.print)))
      fun _ _ _ => rfl
  · exact executes_assignment hname hrow hv

theorem print_reads_back_nested :
    (∃ t, Term.ofText "(-5, \"a\\n\", (true,))" = .ok t ∧
      t.constant = .ok (.tuple [.int (-5), .str "a\n", .tuple [.bool true]])) ∧
    ∃ s, Script.ofText "add R(-5, \"a\\n\", (true,));" = .ok [s] ∧ ∀ c : Console,
      c.executeStatement s =
        c.conclude (c.session.add "R" [.int (-5), .str "a\n", .tuple [.bool true]])
          (.changed "add R(-5, \"a\\n\", (true,))") := by
  let row : Row := [.int (-5), .str "a\n", .tuple [.bool true]]
  obtain ⟨hvalue, _, hrow⟩ := print_reads_back (.tuple row) "R" row
  have hadd := (hrow (by rfl) (by rfl)).1
  exact ⟨hvalue.mpr (by rfl), hadd⟩

/-- The least integer and a carriage return are printed, but not read back. -/
theorem print_unread :
    (¬ ∃ t, Term.ofText (Value.int Int64.minValue).print = .ok t) ∧
    ¬ ∃ t, Term.ofText (Value.str "\r").print = .ok t := by
  constructor
  · rintro ⟨t, ht⟩
    exact absurd (ofText_print_iff.mp ht).1 (by decide)
  · rintro ⟨t, ht⟩
    exact absurd (ofText_print_iff.mp ht).1 (by decide)

end Value

end ViewUpkeep
