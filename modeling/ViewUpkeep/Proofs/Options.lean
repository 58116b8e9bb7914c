import ViewUpkeep.Proofs.Compilation

/-!
Scripts without one of the options. An option that is left out of all queries changes neither what
is declared, nor the order of the queries, nor what their clauses say; and what is left to be set is
set as before.
-/
namespace ViewUpkeep

def QueryDecl.without (option : String) (q : QueryDecl) : QueryDecl :=
  { q with
    result := ⟨q.result.node, ⟨0, 0⟩⟩
    clauses := q.clauses.map fun c => ⟨c.node, ⟨0, 0⟩⟩
    options := q.options.filter fun o => o.1 ≠ option }

def Statement.without (option : String) : Statement → Statement
  | .query q => .query (q.without option)
  | s => s

def Script.without (option : String) (s : Script) : Script :=
  s.map fun t => ⟨t.node.without option, ⟨0, 0⟩⟩

namespace Declarations

variable {option : String}

def without (option : String) (d : Declarations) : Declarations :=
  ⟨d.relations, d.queries.map (·.without option)⟩

theorem reads_without (q : QueryDecl) : (q.without option).reads = q.reads := by
  unfold QueryDecl.reads QueryDecl.without
  rw [List.filterMap_map]
  rfl

theorem declares_without (d : Declarations) (name : String) :
    (d.without option).declares name = d.declares name := by
  unfold declares without
  rw [List.any_map]
  rfl

theorem insert_without (d : Declarations) (s : Statement) :
    (d.without option).insert (s.without option) = (d.insert s).without option := by
  cases s with
  | query q => simp [insert, without, Statement.without]
  | _ => rfl

theorem collectFrom_without {d e : Declarations} {script : Script}
    (h : collectFrom d script = .ok e) :
    collectFrom (d.without option) (script.without option) = .ok (e.without option) := by
  induction script generalizing d with
  | nil =>
    cases h
    rfl
  | cons s rest ih =>
    have hdeclares : (s.node.without option).declares = s.node.declares := by cases s.node <;> rfl
    have hbreach : breach? (s.node.without option) = breach? s.node := by cases s.node <;> rfl
    unfold collectFrom at h
    unfold Script.without List.map collectFrom
    dsimp only
    rw [hdeclares]
    split at h
    · exact ih h
    · rw [declares_without]
      split at h
      · cases h
      · rename_i fresh
        rw [if_neg fresh, hbreach]
        split at h
        · cases h
        · rw [insert_without]
          exact ih h

theorem order_without (queries : List QueryDecl) :
    order (queries.map (·.without option)) = order queries := by
  have hwaiting : waiting (queries.map (·.without option)) = waiting queries := by
    unfold waiting
    rw [List.map_map]
    refine List.map_congr_left fun q _ => ?_
    simp only [Function.comp_apply, reads_without, List.any_map]
    rfl
  unfold order
  rw [hwaiting, List.length_map]

end Declarations

theorem Compile.prepare_without {option : String} {script : Script} {d : Declarations}
    {decls : List QueryDecl} (h : prepare script = .ok (d, decls)) :
    prepare (script.without option) =
      .ok (d.without option, decls.map (·.without option)) := by
  obtain ⟨e, he, h⟩ := bind_eq_ok.mp h
  obtain ⟨names, hnames, h⟩ := bind_eq_ok.mp h
  cases h
  refine bind_eq_ok.mpr ⟨_, Declarations.collectFrom_without he, ?_⟩
  refine bind_eq_ok.mpr ⟨names, (Declarations.order_without _).trans hnames, ?_⟩
  have hfind : ∀ n, (d.queries.map (·.without option)).find? (·.name = n) =
      (d.queries.find? (·.name = n)).map (·.without option) := fun n => List.find?_map
  simp only [Declarations.without, hfind, List.map_filterMap]
  rfl

theorem Lowering.clauses_unplaced (c : Context) (n : Nat) (ts : List (Spanned ClauseTerm)) :
    clauses c n (ts.map fun t => ⟨t.node, ⟨0, 0⟩⟩) = clauses c n ts := by
  induction ts generalizing n with
  | nil => rfl
  | cons t ts ih => simp only [List.map_cons, clauses, ih]

theorem Lowering.query_without (option : String) (decl : QueryDecl) (mode : Mode) (scope : Scope) :
    Lowering.query (decl.without option) mode scope = Lowering.query decl mode scope := by
  simp only [query, QueryDecl.without, clauses_unplaced]

namespace Overrides

/-- Overrides in which an option is forgotten: setting the option has no effect on them, and setting
another has the same effect before and after. -/
structure Forgets (option : String) (clear : Overrides → Overrides) : Prop where
  own : ∀ {o o' : Overrides} {value : String}, o.set option value = .ok o' → clear o' = clear o
  others : ∀ {o o' : Overrides} {name value : String}, name ≠ option → o.set name value = .ok o' →
    (clear o).set name value = .ok (clear o')

theorem Forgets.setAll {option : String} {clear : Overrides → Overrides}
    (forgets : Forgets option clear) {o o' : Overrides} {options : List (String × String)}
    (h : o.setAll options = .ok o') :
    (clear o).setAll (options.filter fun s => s.1 ≠ option) = .ok (clear o') := by
  induction options generalizing o with
  | nil =>
    cases h
    rfl
  | cons s rest ih =>
    obtain ⟨name, value⟩ := s
    obtain ⟨o₁, ho₁, hrest⟩ := bind_eq_ok.mp h
    by_cases hname : name = option
    · subst hname
      rw [List.filter_cons_of_neg (by simp), ← forgets.own ho₁]
      exact ih hrest
    · rw [List.filter_cons_of_pos (by simpa using hname)]
      exact bind_eq_ok.mpr ⟨_, forgets.others hname ho₁, ih hrest⟩

theorem put_eq_ok {α : Type} {x : Except SettingsError α} {f g : α → Overrides}
    {clear : Overrides → Overrides} {o : Overrides} (h : (do return f (← x)) = .ok o)
    (hfg : ∀ a, g a = clear (f a)) : (do return g (← x)) = .ok (clear o) := by
  obtain ⟨a, ha, h⟩ := bind_eq_ok.mp h
  cases h
  exact bind_eq_ok.mpr ⟨a, ha, congrArg Except.ok (hfg a)⟩

end Overrides

end ViewUpkeep
