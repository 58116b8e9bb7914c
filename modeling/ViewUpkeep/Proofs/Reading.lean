import Mathlib.Data.List.TakeWhile
import ViewUpkeep.Statement.Grammar

/-!
Names in a text. The lexer makes names of letters, digits and underscores only, and no reader makes
up a name. So all names that a script declares and all variables in it are identifiers; the names of
derived relations and of the changed row, which have other characters, are none of them.
-/
namespace ViewUpkeep

def IsIdentifier (s : String) : Prop := ∀ c ∈ s.toList, Lexer.isIdentRest c = true

def Token.WellNamed : Token → Prop
  | .ident name => IsIdentifier name
  | _ => True

namespace Lexer

theorem ofWord_wellNamed {word : List Char} (h : ∀ c ∈ word, isIdentRest c = true) :
    (Token.ofWord (String.ofList word)).WellNamed := by
  unfold Token.ofWord
  split
  · trivial
  · split
    · trivial
    · intro c hc
      exact h c (by simpa using hc)

theorem lexeme_wellNamed {c : Char} {rest : List Char} {l : Lexeme} (h : lexeme c rest = .ok l) :
    ∀ t ∈ l.token, t.WellNamed := by
  unfold lexeme at h
  by_cases hstart : isIdentStart c = true
  · rw [if_pos hstart] at h
    cases h
    intro t ht
    cases ht
    refine ofWord_wellNamed fun d hd => ?_
    rcases List.mem_cons.mp hd with rfl | hd
    · have : d.isAlpha = true ∨ d = '_' := by simpa [isIdentStart] using hstart
      rcases this with ha | rfl
      · simp [isIdentRest, Char.isAlphanum, ha]
      · rfl
    · exact List.mem_takeWhile_imp hd
  · rw [if_neg hstart] at h
    have hequal : ∀ short long, ∃ sign, orEqual short long rest = .ofSign sign := by
      intro short long
      unfold orEqual
      split
      · exact ⟨long, rfl⟩
      · exact ⟨short, rfl⟩
    obtain ⟨_, hassign⟩ := hequal .assign .eq
    obtain ⟨_, hlt⟩ := hequal .lt .le
    obtain ⟨_, hgt⟩ := hequal .gt .ge
    rw [hassign, hlt, hgt] at h
    repeat' split at h
    all_goals cases h
    all_goals simp [Token.WellNamed, Lexeme.ofSign]

theorem tokensFrom_wellNamed {offset skip : Nat} {text : List Char} {ts : List (Spanned Token)}
    (h : tokensFrom offset skip text = .ok ts) : ∀ t ∈ ts, t.node.WellNamed := by
  induction text generalizing offset skip ts with
  | nil =>
    cases h
    simp
  | cons c cs ih =>
    unfold tokensFrom at h
    split at h
    · exact ih h
    · split at h
      · exact ih h
      · split at h
        · cases h
        · rename_i l hl
          cases hrest : tokensFrom (offset + 1) (l.length - 1) cs with
          | error e =>
            rw [hrest] at h
            cases h
          | ok rest =>
            rw [hrest] at h
            cases ht : l.token with
            | none =>
              simp only [ht, bind, Except.bind, Except.ok.injEq] at h
              exact h ▸ ih hrest
            | some t =>
              simp only [ht, bind, Except.bind, Except.ok.injEq] at h
              rw [← h]
              exact List.forall_mem_cons.mpr ⟨lexeme_wellNamed hl t ht, ih hrest⟩

theorem tokens_wellNamed {text : List Char} {ts : List (Spanned Token)} (h : tokens text = .ok ts) :
    ∀ t ∈ ts, t.node.WellNamed := by
  unfold tokens at h
  split at h
  · cases h
  · exact tokensFrom_wellNamed h

end Lexer

namespace Reader

def Yields {α : Type} (p : Reader α) (P : α → Prop) : Prop :=
  ∀ ts, (∀ t ∈ ts, t.node.WellNamed) → ∀ a rest stop, p ts = .done a rest stop →
    P a ∧ ∀ t ∈ rest, t.node.WellNamed

theorem eq_done_of_noting {α : Type} {r : Reading α} {earlier : Option Stop} {a : α}
    {rest : List (Spanned Token)} {stop : Option Stop} (h : r.noting earlier = .done a rest stop) :
    ∃ stop', r = .done a rest stop' := by
  cases r with
  | done b rest' stop' =>
    cases h
    exact ⟨stop', rfl⟩
  | failed s => cases earlier <;> cases h

variable {α β : Type} {P : α → Prop} {Q : β → Prop}

theorem Yields.imp {p : Reader α} {P' : α → Prop} (h : p.Yields P) (k : ∀ a, P a → P' a) :
    p.Yields P' :=
  fun ts hts a rest stop hp => ⟨k a (h ts hts a rest stop hp).1, (h ts hts a rest stop hp).2⟩

theorem yields_pure {a : α} (h : P a) : (pure a : Reader α).Yields P := by
  intro ts hts b rest stop hp
  cases hp
  exact ⟨h, hts⟩

theorem Yields.bind {p : Reader α} {f : α → Reader β} (h : p.Yields P)
    (k : ∀ a, P a → (f a).Yields Q) : (p >>= f).Yields Q := by
  intro ts hts b rest stop hp
  change andThen p f ts = _ at hp
  unfold andThen at hp
  split at hp
  · cases hp
  · rename_i a rest' stop' ha
    obtain ⟨hPa, hrest⟩ := h ts hts a rest' stop' ha
    obtain ⟨stop'', hb⟩ := eq_done_of_noting hp
    exact k a hPa rest' hrest b rest stop'' hb

theorem Yields.or {p q : Reader α} (h : p.Yields P) (k : q.Yields P) : (p.or q).Yields P := by
  intro ts hts a rest stop hp
  unfold Reader.or at hp
  split at hp
  · rename_i ha
    cases hp
    exact h ts hts _ _ _ ha
  · obtain ⟨stop', hq⟩ := eq_done_of_noting hp
    exact k ts hts a rest stop' hq

theorem yields_choice {ps : List (Reader α)} (h : ∀ p ∈ ps, p.Yields P) :
    (choice ps).Yields P := by
  induction ps with
  | nil =>
    intro ts hts a rest stop hp
    cases hp
  | cons p ps ih =>
    cases ps with
    | nil => exact h p List.mem_cons_self
    | cons q qs =>
      exact (h p List.mem_cons_self).or (ih fun r hr => h r (List.mem_cons_of_mem p hr))

theorem Yields.optional {p : Reader α} (h : p.Yields P) :
    p.optional.Yields fun o => ∀ a ∈ o, P a := by
  intro ts hts a rest stop hp
  unfold Reader.optional at hp
  split at hp
  · rename_i ha
    cases hp
    obtain ⟨hPa, hrest⟩ := h ts hts _ _ _ ha
    exact ⟨by simpa using hPa, hrest⟩
  · cases hp
    exact ⟨by simp, hts⟩

theorem Yields.upTo {p : Reader α} (h : p.Yields P) (n : Nat) :
    (Reader.upTo n p).Yields fun l => ∀ a ∈ l, P a := by
  induction n with
  | zero => exact yields_pure (by simp)
  | succ n ih =>
    intro ts hts as rest stop hp
    unfold Reader.upTo at hp
    split at hp
    · cases hp
      exact ⟨by simp, hts⟩
    · rename_i a rest' stop' ha
      obtain ⟨hPa, hrest'⟩ := h ts hts _ _ _ ha
      split at hp
      · rename_i has
        cases hp
        obtain ⟨hPas, hrest⟩ := ih rest' hrest' _ _ _ has
        exact ⟨List.forall_mem_cons.mpr ⟨hPa, hPas⟩, hrest⟩
      · cases hp

theorem Yields.many {p : Reader α} (h : p.Yields P) : p.many.Yields fun l => ∀ a ∈ l, P a :=
  fun ts => h.upTo (ts.length + 1) ts

theorem yields_token {f : Token → Option α} (h : ∀ t : Token, t.WellNamed → ∀ a ∈ f t, P a) :
    (token f).Yields P := by
  intro ts hts a rest stop hp
  cases ts with
  | nil => cases hp
  | cons t ts =>
    unfold token at hp
    dsimp only at hp
    split at hp
    · rename_i ha
      cases hp
      exact ⟨h t.node (hts t List.mem_cons_self) _ ha, fun u hu =>
        hts u (List.mem_cons_of_mem t hu)⟩
    · cases hp

theorem yields_exactly (t : Token) : (exactly t).Yields fun _ => True := by
  intro ts hts a rest stop hp
  cases ts with
  | nil => cases hp
  | cons u ts =>
    unfold exactly at hp
    dsimp only at hp
    split at hp
    · cases hp
      exact ⟨trivial, fun v hv => hts v (List.mem_cons_of_mem u hv)⟩
    · cases hp

theorem yields_number {fit : List Char → Option α} {fault : String → NumberFault}
    (h : ∀ cs, ∀ a ∈ fit cs, P a) : (number fit fault).Yields P := by
  intro ts hts a rest stop hp
  unfold number at hp
  split at hp
  · split at hp
    · rename_i ha
      cases hp
      exact ⟨h _ _ ha, fun u hu => hts u (List.mem_cons_of_mem _ hu)⟩
    · cases hp
  · cases hp

theorem Yields.between {p : Reader α} (h : p.Yields P) (left right : Sign) :
    (Reader.between left right p).Yields P :=
  (yields_exactly _).bind fun _ _ => h.bind fun _ ha =>
    (yields_exactly _).bind fun _ _ => yields_pure ha

theorem Yields.commaSeparated1 {p : Reader α} (h : p.Yields P) :
    p.commaSeparated1.Yields fun l => ∀ a ∈ l, P a :=
  h.bind fun _ ha => (((yields_exactly _).bind fun _ _ => h).many).bind fun _ has =>
    yields_pure (List.forall_mem_cons.mpr ⟨ha, has⟩)

theorem Yields.commaSeparated {p : Reader α} (h : p.Yields P) :
    p.commaSeparated.Yields fun l => ∀ a ∈ l, P a := by
  refine h.commaSeparated1.optional.bind fun o ho => yields_pure ?_
  cases o with
  | none => simp
  | some l => exact ho l rfl

theorem Yields.commaTerminated {p : Reader α} (h : p.Yields P) :
    p.commaTerminated.Yields fun l => ∀ a ∈ l, P a := by
  refine h.commaSeparated1.optional.bind fun o ho => ?_
  cases o with
  | none => exact yields_pure (by simp)
  | some l => exact (yields_exactly _).optional.bind fun _ _ => yields_pure (ho l rfl)

theorem Yields.spanned {p : Reader α} (h : p.Yields P) :
    p.spanned.Yields fun s => P s.node := by
  intro ts hts a rest stop hp
  unfold Reader.spanned at hp
  split at hp
  · rename_i ha
    cases hp
    exact h ts hts _ _ _ ha
  · cases hp

theorem yields_ident : ident.Yields IsIdentifier := by
  refine yields_token fun t ht a ha => ?_
  cases t with
  | ident name =>
    cases ha
    exact ht
  | _ => cases ha

theorem Yields.readText {p : Reader α} (h : p.Yields P) {text : String} {a : α}
    (hr : p.readText text = .ok a) : P a := by
  unfold Reader.readText at hr
  split at hr
  · cases hr
  · rename_i ts hts
    split at hr
    · cases hr
    · rename_i hall
      cases hr
      unfold readAll at hall
      split at hall
      · rename_i hdone
        cases hall
        have hend : endOfInput.Yields fun _ => True := by
          intro us hus b rest stop he
          unfold endOfInput at he
          split at he
          · cases he
            exact ⟨trivial, hus⟩
          · cases he
        have hp : (do let a ← p; endOfInput; return a : Reader α).Yields P :=
          h.bind fun _ ha => hend.bind fun _ _ => yields_pure ha
        exact (hp ts (Lexer.tokens_wellNamed hts) _ _ _ hdone).1
      · cases hall

end Reader

/-! ### Names in terms and statements -/

namespace Term

mutual

def names : Term → List String
  | .var name => [name]
  | .wildcard | .int _ | .str _ | .bool _ => []
  | .tuple items => namesAll items
  | .not t | .neg t => t.names
  | .binary _ l r => l.names ++ r.names

def namesAll : List Term → List String
  | [] => []
  | t :: ts => t.names ++ namesAll ts

end

def WellNamed (t : Term) : Prop := ∀ n ∈ t.names, IsIdentifier n

theorem mem_namesAll {ts : List Term} {n : String} : n ∈ namesAll ts ↔ ∃ t ∈ ts, n ∈ t.names := by
  induction ts with
  | nil => simp [namesAll]
  | cons t ts ih => simp [namesAll, ih]

theorem wellNamed_tuple {items : List Term} (h : ∀ t ∈ items, t.WellNamed) :
    (tuple items).WellNamed := by
  intro n hn
  obtain ⟨t, ht, hn⟩ := mem_namesAll.mp (by simpa [names] using hn)
  exact h t ht n hn

theorem wellNamed_binary {op : Operator} {l r : Term} (hl : l.WellNamed) (hr : r.WellNamed) :
    (binary op l r).WellNamed := by
  intro n hn
  rw [names, List.mem_append] at hn
  exact hn.elim (hl n) (hr n)

namespace Grammar

open Reader

theorem literal_yields : literal.Yields WellNamed := by
  refine yields_token fun t ht a ha => ?_
  cases t with
  | ident name =>
    cases ha
    simpa [WellNamed, names, Token.WellNamed] using ht
  | keyword k => cases k <;> cases ha <;> simp [WellNamed, names]
  | str s => cases ha; simp [WellNamed, names]
  | wildcard => cases ha; simp [WellNamed, names]
  | int | sign => cases ha

theorem intLiteral_yields : intLiteral.Yields WellNamed := by
  refine yields_number fun cs a ha => ?_
  obtain ⟨n, _, rfl⟩ := Option.map_eq_some_iff.mp ha
  simp [WellNamed, names]

theorem unit_yields : unit.Yields WellNamed :=
  (yields_exactly _).bind fun _ _ => (yields_exactly _).bind fun _ _ =>
    yields_pure (wellNamed_tuple (by simp))

variable {inner : Reader Term}

theorem parenthesised_yields (h : inner.Yields WellNamed) :
    (parenthesised inner).Yields WellNamed := by
  refine (h.bind fun first hfirst => ?_).between _ _
  refine (((yields_exactly _).bind fun _ _ => h).many).bind fun rest hrest => ?_
  refine (yields_exactly _).optional.bind fun trailing _ => yields_pure ?_
  split
  · exact hfirst
  · exact wellNamed_tuple (List.forall_mem_cons.mpr ⟨hfirst, hrest⟩)

theorem atom_yields (h : inner.Yields WellNamed) : (atom inner).Yields WellNamed := by
  refine yields_choice fun p hp => ?_
  simp only [List.mem_cons, List.not_mem_nil, or_false] at hp
  rcases hp with rfl | rfl | rfl | rfl
  · exact intLiteral_yields
  · exact literal_yields
  · exact unit_yields
  · exact parenthesised_yields h

theorem prefixed_yields {mark : Reader Unit} {wrap : Term → Term} {operand : Reader Term}
    (hmark : mark.Yields fun _ => True) (hwrap : ∀ t : Term, t.WellNamed → (wrap t).WellNamed)
    (h : operand.Yields WellNamed) : (prefixed mark wrap operand).Yields WellNamed := by
  refine hmark.many.bind fun marks _ => h.bind fun t ht => yields_pure ?_
  induction marks with
  | nil => exact ht
  | cons m marks ih => exact hwrap _ (ih fun _ _ => trivial)

theorem chain_yields {op : Reader Operator} {operand : Reader Term}
    (hop : op.Yields fun _ => True) (h : operand.Yields WellNamed) :
    (chain op operand).Yields WellNamed := by
  have hpair : (do let o ← op; let t ← operand; return (o, t) : Reader (Operator × Term)).Yields
      fun r => r.2.WellNamed :=
    hop.bind fun o _ => h.bind fun t ht => yields_pure ht
  refine h.bind fun first hfirst => hpair.many.bind fun rest hrest => yields_pure ?_
  induction rest generalizing first with
  | nil => exact hfirst
  | cons r rest ih =>
    rw [List.forall_mem_cons] at hrest
    exact ih _ (wellNamed_binary hfirst hrest.1) hrest.2

theorem signOp_yields (s : Sign) (op : Operator) : (signOp s op).Yields fun _ => True :=
  (yields_exactly _).bind fun _ _ => yields_pure trivial

theorem keywordOp_yields (k : Keyword) (op : Operator) : (keywordOp k op).Yields fun _ => True :=
  (yields_exactly _).bind fun _ _ => yields_pure trivial

theorem comparisonOp_yields : comparisonOp.Yields fun _ => True := by
  refine yields_choice fun p hp => ?_
  simp only [List.mem_cons, List.not_mem_nil, or_false] at hp
  rcases hp with rfl | rfl | rfl | rfl | rfl | rfl <;> exact signOp_yields _ _

theorem sum_yields (h : inner.Yields WellNamed) : (sum inner).Yields WellNamed := by
  have hneg : (negation inner).Yields WellNamed :=
    prefixed_yields (yields_exactly _) (fun t ht => ht) (atom_yields h)
  exact chain_yields ((signOp_yields _ _).or (signOp_yields _ _))
    (chain_yields (signOp_yields _ _) hneg)

theorem comparison_yields (h : inner.Yields WellNamed) : (comparison inner).Yields WellNamed := by
  have hpair : (do let o ← comparisonOp; let r ← sum inner; return (o, r) :
      Reader (Operator × Term)).Yields fun r => r.2.WellNamed :=
    comparisonOp_yields.bind fun o _ => (sum_yields h).bind fun t ht => yields_pure ht
  refine (sum_yields h).bind fun l hl => hpair.optional.bind fun rest hrest => yields_pure ?_
  split
  · rename_i o r
    exact wellNamed_binary hl (hrest (o, r) rfl)
  · exact hl

theorem nested_yields (depth : Nat) : (nested depth).Yields WellNamed := by
  induction depth with
  | zero => exact yields_choice (by simp)
  | succ depth ih =>
    exact chain_yields (keywordOp_yields _ _) (chain_yields (keywordOp_yields _ _)
      (prefixed_yields (yields_exactly _) (fun t ht => ht) (comparison_yields ih)))

theorem term_yields : term.Yields WellNamed := fun ts => nested_yields (ts.length + 1) ts

end Grammar

end Term

def Range.WellNamed : Range → Prop
  | .named _ args => ∀ as ∈ args, ∀ t ∈ as, t.WellNamed
  | .singleton t => t.WellNamed

def ClauseTerm.WellNamed : ClauseTerm → Prop
  | .member p range => p.WellNamed ∧ range.WellNamed
  | .cond t => t.WellNamed

structure QueryDecl.WellNamed (q : QueryDecl) : Prop where
  name : IsIdentifier q.name
  params : ∀ p ∈ q.params, IsIdentifier p
  result : q.result.node.WellNamed
  clauses : ∀ c ∈ q.clauses, c.node.WellNamed

def Statement.WellNamed : Statement → Prop
  | .relation name _ | .map name _ => IsIdentifier name
  | .query decl => decl.WellNamed
  | _ => True

namespace Statement.Grammar

open Reader Term.Grammar

theorem args_yields : args.Yields fun as => ∀ t ∈ as, t.WellNamed :=
  term_yields.commaTerminated.between _ _

theorem range_yields : range.Yields Range.WellNamed := by
  refine Yields.or ?_ ?_
  · exact (term_yields.between _ _).bind fun t ht => yields_pure ht
  · exact yields_ident.bind fun _ _ => args_yields.optional.bind fun _ has => yields_pure has

theorem clause_yields : clause.Yields fun c => c.node.WellNamed := by
  refine Yields.spanned (term_yields.bind fun t ht => ?_)
  refine ((yields_exactly _).bind fun _ _ => range_yields).optional.bind fun o ho => ?_
  cases o with
  | none => exact yields_pure ht
  | some r => exact yields_pure ⟨ht, ho r rfl⟩

theorem query_yields : query.Yields WellNamed := by
  have hoptions : (do keyword .options; commaSeparated1 option :
      Reader (List (String × String))).optional.Yields fun _ => True :=
    (Yields.bind (P := fun _ => True) (Q := fun _ => True) (yields_exactly _) fun _ _ =>
      (Yields.commaSeparated1 (P := fun _ => True) (yields_ident.bind fun _ _ =>
        (yields_exactly _).bind fun _ _ => (yields_token (P := fun _ => True) (by simp)).bind
          fun _ _ => yields_pure trivial)).imp fun _ _ => trivial).optional.imp fun _ _ => trivial
  have hcomp : comprehension.Yields fun c =>
      c.1.node.WellNamed ∧ ∀ d ∈ c.2, d.node.WellNamed :=
    (term_yields.spanned.bind fun _ hr => (yields_exactly _).bind fun _ _ =>
      clause_yields.commaTerminated.bind fun _ hcs => yields_pure ⟨hr, hcs⟩).between _ _
  refine (yields_exactly _).bind fun _ _ => yields_ident.bind fun name hname => ?_
  refine (yields_ident.commaSeparated.between _ _).optional.bind fun params hparams => ?_
  refine (yields_exactly _).bind fun _ _ => hcomp.bind fun c hc => ?_
  refine hoptions.bind fun options _ => yields_pure ⟨hname, ?_, hc.1, hc.2⟩
  cases params with
  | none => simp
  | some ps => exact hparams ps rfl

theorem declaration_yields (k : Keyword) {make : String → Nat → Statement}
    (h : ∀ name n, IsIdentifier name → (make name n).WellNamed) :
    (declaration k make).Yields WellNamed :=
  (yields_exactly _).bind fun _ _ => yields_ident.bind fun name hname =>
    ((yields_number (P := fun _ => True) (by simp)).between _ _).bind fun n _ =>
      yields_pure (h name n hname)

theorem command_yields (k : Keyword) {make : String → List Term → Statement}
    (h : ∀ name ts, (make name ts).WellNamed) : (command k make).Yields WellNamed :=
  (yields_exactly _).bind fun _ _ => yields_ident.bind fun name _ =>
    args_yields.bind fun as _ => yields_pure (h name as)

theorem statement_yields : statement.Yields WellNamed := by
  have hall : ∀ p ∈ [declaration .relation .relation, declaration .map .map, query,
      command .add .add, command .remove .remove, assignment, command .unset .unset,
      command .demand .demand, command .undemand .undemand, display], p.Yields WellNamed := by
    intro p hp
    simp only [List.mem_cons, List.not_mem_nil, or_false] at hp
    rcases hp with rfl | rfl | rfl | rfl | rfl | rfl | rfl | rfl | rfl | rfl
    · exact declaration_yields _ fun _ _ h => h
    · exact declaration_yields _ fun _ _ h => h
    · exact query_yields
    · exact command_yields _ fun _ _ => trivial
    · exact command_yields _ fun _ _ => trivial
    · exact (yields_exactly _).bind fun _ _ => yields_ident.bind fun _ _ =>
        args_yields.bind fun _ _ => (yields_exactly _).bind fun _ _ =>
          term_yields.bind fun _ _ => yields_pure trivial
    · exact command_yields _ fun _ _ => trivial
    · exact command_yields _ fun _ _ => trivial
    · exact command_yields _ fun _ _ => trivial
    · exact (yields_exactly _).bind fun _ _ => yields_ident.bind fun _ _ =>
        args_yields.optional.bind fun _ _ => yields_pure trivial
  exact (yields_choice hall).bind fun s hs => (yields_exactly _).bind fun _ _ => yields_pure hs

end Statement.Grammar

/-- Every name that a text declares, and every variable in it, is an identifier. -/
theorem Script.ofText_wellNamed {text : String} {script : Script}
    (h : Script.ofText text = .ok script) : ∀ s ∈ script, s.node.WellNamed :=
  Statement.Grammar.statement_yields.spanned.many.readText h

end ViewUpkeep
