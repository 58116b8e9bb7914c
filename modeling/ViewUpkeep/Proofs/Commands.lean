import ViewUpkeep.Proofs.Rereading

/-!
What commands are read as. Every statement opens with a keyword of its own, which decides among the
alternatives, and a printed row is read as the list of arguments that it prints.
-/
namespace ViewUpkeep

open Lexer

namespace Reader

variable {α β : Type} {p q : Reader α} {ts rest : List (Spanned Token)}

theorem takes_spanned {s : Spanned α} :
    (spanned p).Takes ts s rest ↔ p.Takes ts s.node rest ∧ s.span = spanTo ts rest := by
  obtain ⟨a, span⟩ := s
  unfold Takes spanned
  cases p ts with
  | failed stop => simp
  | done b mid stop =>
    simp only [Reading.done.injEq, Spanned.mk.injEq, exists_and_left, exists_eq', and_true]
    constructor
    · rintro ⟨⟨rfl, rfl⟩, rfl⟩
      exact ⟨⟨rfl, rfl⟩, rfl⟩
    · rintro ⟨⟨rfl, rfl⟩, rfl⟩
      exact ⟨⟨rfl, rfl⟩, rfl⟩

theorem refuses_bind {f : α → Reader β} (h : p.Refuses ts) : (p >>= f).Refuses ts := by
  apply refuses_iff.mpr
  intro b rest hb
  obtain ⟨a, mid, ha, _⟩ := takes_bind.mp hb
  exact ha.not_refuses h

theorem refuses_or (hp : p.Refuses ts) (hq : q.Refuses ts) : (p.or q).Refuses ts := by
  apply refuses_iff.mpr
  intro a rest ha
  obtain ha | ⟨_, ha⟩ := takes_or.mp ha
  · exact ha.not_refuses hp
  · exact ha.not_refuses hq

theorem takes_many_once {a : α} (h : p.Takes ts a []) (hnil : p.Refuses []) :
    p.many.Takes ts [a] [] := by
  obtain ⟨stop, hstop⟩ := h
  obtain ⟨fault, hfault⟩ := hnil
  cases ts with
  | nil =>
    rw [hfault] at hstop
    cases hstop
  | cons t ts => simp [Takes, many, upTo, hstop, hfault]

def Begins (k : Keyword) (p : Reader α) : Prop :=
  ∀ ts, (∀ u ∈ ts.head?, u.node ≠ .keyword k) → p.Refuses ts

theorem begins_keyword (k : Keyword) (f : Unit → Reader α) : Begins k (keyword k >>= f) :=
  fun _ h => refuses_bind (Term.Grammar.refuses_exactly h)

theorem refuses_choice {alts : List (Keyword × Reader α)} (h : ∀ x ∈ alts, Begins x.1 x.2)
    (hts : ∀ x ∈ alts, ∀ u ∈ ts.head?, u.node ≠ .keyword x.1) :
    (choice (alts.map Prod.snd)).Refuses ts := by
  match alts with
  | [] => exact ⟨_, rfl⟩
  | [x] => exact h x List.mem_cons_self ts (hts x List.mem_cons_self)
  | x :: y :: alts =>
    rw [List.forall_mem_cons] at h hts
    exact refuses_or (h.1 ts hts.1) (refuses_choice h.2 hts.2)

/-- Among alternatives with keywords of their own, the first token decides. -/
theorem takes_choice {alts : List (Keyword × Reader α)} (h : ∀ x ∈ alts, Begins x.1 x.2)
    (hnodup : (alts.map Prod.fst).Nodup) {x : Keyword × Reader α} (hx : x ∈ alts)
    (hts : ∀ u ∈ ts.head?, u.node = .keyword x.1) {a : α} (ha : x.2.Takes ts a rest) :
    (choice (alts.map Prod.snd)).Takes ts a rest := by
  match alts with
  | [] => cases hx
  | [y] =>
    cases List.mem_singleton.mp hx
    exact ha
  | y :: z :: alts =>
    rw [List.forall_mem_cons] at h
    rw [List.map_cons, List.nodup_cons] at hnodup
    apply takes_or.mpr
    obtain rfl | hx := List.mem_cons.mp hx
    · exact .inl ha
    · have hne : x.1 ≠ y.1 := fun he => hnodup.1 (he ▸ List.mem_map_of_mem hx)
      have hrefuses : y.2.Refuses ts := by
        apply h.1
        intro u hu he
        rw [hts u hu] at he
        exact hne (Token.keyword.inj he)
      exact .inr ⟨hrefuses, takes_choice h.2 hnodup.2 hx hts ha⟩

end Reader

namespace Statement.Grammar

open Reader Term Term.Grammar

def alternatives : List (Keyword × Reader Statement) :=
  [(.relation, declaration .relation .relation), (.map, declaration .map .map), (.query, query),
    (.add, command .add .add), (.remove, command .remove .remove), (.set, assignment),
    (.unset, command .unset .unset), (.demand, command .demand .demand),
    (.undemand, command .undemand .undemand), (.display, display)]

theorem begins_alternatives : ∀ x ∈ alternatives, Begins x.1 x.2 := by
  simp only [alternatives, List.forall_mem_cons]
  exact ⟨begins_keyword _ _, begins_keyword _ _, begins_keyword _ _, begins_keyword _ _,
    begins_keyword _ _, begins_keyword _ _, begins_keyword _ _, begins_keyword _ _,
    begins_keyword _ _, begins_keyword _ _, by simp⟩

theorem statement_eq : statement = (do
    let s ← choice (alternatives.map Prod.snd)
    sign .semicolon
    return s) := rfl

theorem refuses_statement_nil : statement.Refuses [] := by
  rw [statement_eq]
  exact refuses_bind (refuses_choice begins_alternatives (by simp))

theorem takes_statement {x : Keyword × Reader Statement} (hx : x ∈ alternatives)
    {ts rest : List (Spanned Token)} {v : Spanned Token} {s : Statement}
    (hts : ∀ u ∈ ts.head?, u.node = .keyword x.1) (hs : x.2.Takes ts s (v :: rest))
    (hv : v.node = .sign .semicolon) : statement.Takes ts s rest := by
  have hchoice := takes_choice begins_alternatives (by decide) hx hts hs
  rw [statement_eq, takes_bind]
  refine ⟨s, v :: rest, hchoice, takes_bind.mpr ⟨(), rest, takes_exactly.mpr ⟨v, rfl, hv⟩, ?_⟩⟩
  exact takes_pure.mpr ⟨rfl, rfl⟩

theorem takes_ident {u : Spanned Token} {name : String} (hu : u.node = .ident name)
    (rest : List (Spanned Token)) : ident.Takes (u :: rest) name rest :=
  (spots_token _ _ _ _).mpr ⟨u, rfl, by rw [hu]⟩

theorem takes_items {q : List Token × Term} {qs : List (List Token × Term)}
    (h : ∀ x ∈ q :: qs, Derives .disjunction x.1 x.2) {comma : Option Unit} {closing : List Token}
    (hclosing : Closes comma closing) {used : List (Spanned Token)}
    (hused : nodes used = .sign .lparen :: (q.1 ++ qs.flatMap (fun x => .sign .comma :: x.1) ++
      closing)) (rest : List (Spanned Token)) :
    args.Takes (used ++ rest) (q.2 :: qs.map Prod.snd) rest := by
  obtain ⟨v, us, rfl, hv, hus⟩ := nodes_eq_cons hused
  obtain ⟨_, close, rfl, hinside, hclose⟩ := nodes_eq_append hus
  obtain ⟨first, more, rfl, hfirst, hmore⟩ := nodes_eq_append hinside
  obtain ⟨⟨w, hw, hcomma⟩, hrefuses, hstop⟩ := hclosing.takes hclose sound_term rest
  have haccepts : ∀ x ∈ q :: qs, Accepts term x.1 x.2 :=
    fun x hx used rest hu hr => takes_term (hu ▸ h x hx) hr
  rw [List.forall_mem_cons] at haccepts
  obtain ⟨hitems, hgo⟩ := repeats_items hrefuses hstop haccepts.2 hmore
  have hfirst := haccepts.1 first _ hfirst hgo
  have hmany := (takes_many (nextItem_consumes sound_term)).mpr hitems
  have hseparated : (commaSeparated1 term).Takes (first ++ (more ++ (close ++ rest)))
      (q.2 :: qs.map Prod.snd) (close ++ rest) :=
    takes_bind.mpr ⟨q.2, _, hfirst, takes_bind.mpr ⟨_, _, hmany, takes_pure.mpr ⟨rfl, rfl⟩⟩⟩
  have hterminated : (commaTerminated term).Takes (first ++ (more ++ (close ++ rest)))
      (q.2 :: qs.map Prod.snd) (w :: rest) :=
    takes_bind.mpr ⟨some _, _, takes_optional.mpr (.inl ⟨_, rfl, hseparated⟩),
      takes_bind.mpr ⟨comma, _, hcomma, takes_pure.mpr ⟨rfl, rfl⟩⟩⟩
  exact takes_between.mpr ⟨v, _, w, by simp, hv, hw, hterminated⟩

theorem takes_no_args {used : List (Spanned Token)}
    (hused : nodes used = [.sign .lparen, .sign .rparen]) (rest : List (Spanned Token)) :
    args.Takes (used ++ rest) [] rest := by
  obtain ⟨v, us, rfl, hv, hus⟩ := nodes_eq_cons hused
  obtain ⟨w, ws, rfl, hw, hws⟩ := nodes_eq_cons hus
  obtain rfl : ws = [] := List.map_eq_nil_iff.mp hws
  have hrefuses : (commaSeparated1 term).Refuses (w :: rest) :=
    refuses_bind (refuses_rparen sound_term hw rest)
  have hnone : (commaTerminated term).Takes (w :: rest) [] (w :: rest) :=
    takes_bind.mpr ⟨none, _, takes_optional.mpr (.inr ⟨rfl, rfl, hrefuses⟩),
      takes_pure.mpr ⟨rfl, rfl⟩⟩
  exact takes_between.mpr ⟨v, _, w, rfl, hv, hw, hnone⟩

theorem takes_args {ts : List Term}
    (h : ∀ q ∈ ts.map fun t => (t.tokens, t.reread), Derives .disjunction q.1 q.2)
    {used : List (Spanned Token)} (hused : nodes used = itemTokens ts)
    (rest : List (Spanned Token)) : args.Takes (used ++ rest) (rereadAll ts) rest := by
  match ts with
  | [] => exact takes_no_args hused rest
  | [t] => exact takes_items h .comma (by simpa [itemTokens] using hused) rest
  | t :: u :: us =>
    have hitems := takes_items h .plain (by rw [hused, ← tailTokens_eq]; rfl) rest
    rw [← rereadAll_eq] at hitems
    exact hitems

theorem takes_command {k : Keyword} {make : String → List Term → Statement} {name : String}
    {ts : List Term}
    (h : ∀ q ∈ ts.map fun t => (t.tokens, t.reread), Derives .disjunction q.1 q.2)
    {used : List (Spanned Token)}
    (hused : nodes used = .keyword k :: .ident name :: itemTokens ts)
    (rest : List (Spanned Token)) :
    (command k make).Takes (used ++ rest) (make name (rereadAll ts)) rest := by
  obtain ⟨u, us, rfl, hu, hus⟩ := nodes_eq_cons hused
  obtain ⟨v, vs, rfl, hv, hvs⟩ := nodes_eq_cons hus
  exact takes_bind.mpr ⟨(), _, takes_exactly.mpr ⟨u, rfl, hu⟩,
    takes_bind.mpr ⟨name, _, takes_ident hv _,
      takes_bind.mpr ⟨_, _, takes_args h hvs rest, takes_pure.mpr ⟨rfl, rfl⟩⟩⟩⟩

theorem takes_assignment {name : String} {ts : List Term} {t : Term}
    (h : ∀ q ∈ ts.map fun t => (t.tokens, t.reread), Derives .disjunction q.1 q.2)
    (ht : Derives .disjunction t.tokens t.reread) {used : List (Spanned Token)}
    (hused : nodes used =
      .keyword .set :: .ident name :: (itemTokens ts ++ .sign .assign :: t.tokens))
    {rest : List (Spanned Token)} (hrest : Stops .disjunction rest) :
    assignment.Takes (used ++ rest) (.set name (rereadAll ts) t.reread) rest := by
  obtain ⟨u, us, rfl, hu, hus⟩ := nodes_eq_cons hused
  obtain ⟨v, vs, rfl, hv, hvs⟩ := nodes_eq_cons hus
  obtain ⟨row, more, rfl, hrow, hmore⟩ := nodes_eq_append hvs
  obtain ⟨w, value, rfl, hw, hvalue⟩ := nodes_eq_cons hmore
  have hargs := takes_args h hrow (w :: (value ++ rest))
  have hterm : term.Takes (value ++ rest) t.reread rest := takes_term (hvalue ▸ ht) hrest
  have hafter : (do let keys ← args; sign .assign; let value ← term
                    return Statement.set name keys value : Reader Statement).Takes
      (row ++ w :: (value ++ rest)) (.set name (rereadAll ts) t.reread) rest :=
    takes_bind.mpr ⟨_, _, hargs, takes_bind.mpr ⟨(), _, takes_exactly.mpr ⟨w, rfl, hw⟩,
      takes_bind.mpr ⟨_, _, hterm, takes_pure.mpr ⟨rfl, rfl⟩⟩⟩⟩
  refine takes_bind.mpr ⟨(), _, takes_exactly.mpr ⟨u, rfl, hu⟩,
    takes_bind.mpr ⟨name, _, takes_ident hv _, ?_⟩⟩
  simpa using hafter

end Statement.Grammar

theorem Term.Legible.items {ts : List Term} (h : (Term.tuple ts).Legible) :
    ∀ q ∈ ts.map fun t => (t.tokens, t.reread), Term.Derives .disjunction q.1 q.2 := by
  have hrange := h.inRange
  have hopen := h.openToRight
  simp only [Term.everywhere, Term.isInRange, Term.isOpenToRight, Bool.true_and] at hrange hopen
  exact Term.derives_items ts hrange hopen

namespace Script

open Statement.Grammar Term Term.Grammar Reader

theorem ofText_of_scan {x : Keyword × Reader Statement} (hx : x ∈ alternatives) {text : String}
    {ts : List Token} {s : Statement}
    (hscan : scan text.toList = some (.keyword x.1 :: ts ++ [.sign .semicolon]))
    (h : ∀ used w, nodes used = .keyword x.1 :: ts → w.node = .sign .semicolon →
      x.2.Takes (used ++ [w]) s [w]) :
    ∃ span, ofText text = .ok [⟨s, span⟩] := by
  obtain ⟨us, hus, hnodes⟩ := tokens_of_scan hscan
  rw [List.append_eq, ← List.cons_append] at hnodes
  obtain ⟨used, semicolon, rfl, hused, hsemicolon⟩ := nodes_eq_append hnodes
  obtain ⟨w, ws, rfl, hw, hws⟩ := nodes_eq_cons hsemicolon
  obtain rfl : ws = [] := List.map_eq_nil_iff.mp hws
  have hhead : ∀ u ∈ (used ++ [w]).head?, u.node = .keyword x.1 := by
    obtain ⟨u, us, rfl, hu, _⟩ := nodes_eq_cons hused
    simpa using hu
  have hstatement := takes_statement hx hhead (h used w hused hw) hw
  have hone : (spanned statement).Takes (used ++ [w]) ⟨s, spanTo (used ++ [w]) []⟩ [] :=
    takes_spanned.mpr ⟨hstatement, rfl⟩
  have hnil : (spanned statement).Refuses [] := by
    apply refuses_iff.mpr
    intro a rest ha
    exact (takes_spanned.mp ha).1.not_refuses refuses_statement_nil
  exact ⟨_, readText_eq_ok.mpr ⟨_, hus, readAll_eq_ok.mpr (takes_many_once hone hnil)⟩⟩

variable {name : String} {items : List Term}

theorem delimited_tuple (ts : List Term) (rest : List Char) :
    Delimited ((Term.tuple ts).print.toList ++ rest) := by
  have hopen : isIdentRest '(' = false := rfl
  match ts with
  | [] | [_] | _ :: _ :: _ => simpa [print, printItems] using hopen

theorem scan_command (k : Keyword) (hname : isName name = true)
    (hn : (Term.tuple items).everywhere isNamed = true) (h : (Term.tuple items).Legible)
    {rest : List Char} (hrest : Delimited rest) :
    scan ((k.spelling ++ " " ++ name ++ (Term.tuple items).print).toList ++ rest) =
      (scan rest).map (.keyword k :: .ident name :: itemTokens items ++ ·) := by
  have hchars : (k.spelling ++ " " ++ name ++ (Term.tuple items).print).toList ++ rest =
      k.spelling.toList ++ ' ' :: (name.toList ++ ((Term.tuple items).print.toList ++ rest)) := by
    simp
  rw [hchars, scan_keyword k (delimited_cons.mpr rfl), scan_space,
    scan_name hname (delimited_tuple items rest), h.scan hn hrest, Option.map_map,
    Option.map_map]
  rfl

theorem ofText_command {k : Keyword} {make : String → List Term → Statement}
    (hk : (k, command k make) ∈ alternatives) (hname : isName name = true)
    (hn : (Term.tuple items).everywhere isNamed = true) (h : (Term.tuple items).Legible) :
    ∃ span, ofText (k.spelling ++ " " ++ name ++ (Term.tuple items).print ++ ";") =
      .ok [⟨make name (rereadAll items), span⟩] := by
  have hend : Delimited ";".toList := delimited_cons.mpr rfl
  apply ofText_of_scan hk (by rw [String.toList_append, scan_command k hname hn h hend]; rfl)
  intro used w hused hw
  exact takes_command h.items hused [w]

theorem ofText_assignment {t : Term} (hname : isName name = true)
    (hn : (Term.tuple items).everywhere isNamed = true) (h : (Term.tuple items).Legible)
    (htn : t.everywhere isNamed = true) (ht : t.Legible) :
    ∃ span, ofText ("set " ++ name ++ (Term.tuple items).print ++ " = " ++ t.print ++ ";") =
      .ok [⟨.set name (rereadAll items) t.reread, span⟩] := by
  have hend : Delimited ";".toList := delimited_cons.mpr rfl
  have hvalue : scan (' ' :: '=' :: ' ' :: (t.print.toList ++ ";".toList)) =
      some (.sign .assign :: (t.tokens ++ [.sign .semicolon])) := by
    have hassign : scan ('=' :: ' ' :: (t.print.toList ++ ";".toList)) = _ :=
      scan_sign .assign (by simp)
    rw [scan_space, hassign, scan_space, ht.scan htn hend]
    rfl
  have hscan : scan ("set " ++ name ++ (Term.tuple items).print ++ " = " ++ t.print ++ ";").toList =
      some ((.keyword .set :: .ident name :: (itemTokens items ++ .sign .assign :: t.tokens)) ++
        [.sign .semicolon]) := by
    have hchars : ("set " ++ name ++ (Term.tuple items).print ++ " = " ++ t.print ++ ";").toList =
        (Keyword.set.spelling ++ " " ++ name ++ (Term.tuple items).print).toList ++
          ' ' :: '=' :: ' ' :: (t.print.toList ++ ";".toList) := by
      simp [Keyword.spelling]
    rw [hchars, scan_command .set hname hn h (delimited_cons.mpr rfl), hvalue]
    simp
  have hset : (Keyword.set, assignment) ∈ alternatives := by simp [alternatives]
  apply ofText_of_scan hset hscan
  intro used w hused hw
  exact takes_assignment h.items ht.derives hused (stops_of_none (by simp [hw, Token.operator?]))

end Script

end ViewUpkeep
