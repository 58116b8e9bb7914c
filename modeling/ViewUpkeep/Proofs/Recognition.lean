import ViewUpkeep.Proofs.Grammar

/-!
The readers of terms are complete. The reader of a level takes all that the level derives, unless
more of the level follows: repetition is greedy, so what comes next decides how far a reader goes.
With soundness this makes reading and deriving the same: a whole list of tokens is read as the term
that it derives, of which there is one at most.
-/
namespace ViewUpkeep

namespace Term

namespace Grammar

open Reader

def Stops (l : Level) (rest : List (Spanned Token)) : Prop :=
  ∀ t ∈ rest.head?, ∀ op, t.node.operator? = some op → op.level.rank < l.rank

theorem Stops.inner {l m : Level} (hl : l.inner = some m) {rest : List (Spanned Token)}
    (h : Stops l rest) : Stops m rest := by
  intro t ht op hop
  have hlt := h t ht op hop
  rw [Level.rank_inner hl]
  omega

theorem stops_cons {l : Level} {t : Spanned Token} {op : Operator}
    (hop : t.node.operator? = some op)
    (hlt : op.level.rank < l.rank) (rest : List (Spanned Token)) : Stops l (t :: rest) := by
  intro u hu op' hop'
  cases hu
  rw [hop] at hop'
  cases hop'
  exact hlt

theorem stops_of_none {l : Level} {rest : List (Spanned Token)}
    (h : ∀ t ∈ rest.head?, t.node.operator? = none) : Stops l rest := by
  intro t ht op hop
  rw [h t ht] at hop
  cases hop

theorem Stops.operators {l : Level} {rest : List (Spanned Token)} (h : Stops l rest) :
    ∀ t ∈ rest.head?, operators l t.node = none := by
  intro t ht
  cases hop : Grammar.operators l t.node with
  | none => rfl
  | some op =>
    obtain ⟨hspelt, rfl⟩ := operators_eq_some.mp hop
    exact absurd (h t ht op hspelt) (Nat.lt_irrefl _)

theorem refuses_link {ops : Reader Operator} {operand : Reader Term} {l : Level}
    (hops : ops.Spots (operators l)) {rest : List (Spanned Token)}
    (h : ∀ t ∈ rest.head?, operators l t.node = none) : (link ops operand).Refuses rest := by
  refine refuses_iff.mpr fun x rest' ht => ?_
  obtain ⟨u, us, rfl, hu, hl, _⟩ := (takes_link hops).mp ht
  have hnone := h u rfl
  rw [operators_eq_some.mpr ⟨hu, hl⟩] at hnone
  cases hnone

theorem refuses_exactly {t : Token} {ts : List (Spanned Token)}
    (h : ∀ u ∈ ts.head?, u.node ≠ t) : (exactly t).Refuses ts := by
  refine refuses_iff.mpr fun _ rest ht => ?_
  obtain ⟨v, rfl, hv⟩ := takes_exactly.mp ht
  exact h v rfl hv

theorem takes_of_inner {p : Reader Term} (hp : Sound p .disjunction) {l m : Level}
    (hl : l.inner = some m) {ts rest : List (Spanned Token)} {t : Term}
    (hopen : ∀ u ∈ ts.head?, m.Opens u.node)
    (hrest : ∀ u ∈ rest.head?, operators l u.node = none)
    (h : (reader p m).Takes ts t rest) : (reader p l).Takes ts t rest := by
  have hchain : ∀ {ops}, Chains l ops m → (reader p l).Takes ts t rest := by
    intro ops c
    rw [c.reads]
    exact (takes_chain c.spots (sound_reader hp m)).mpr
      ⟨t, rest, [], h, .done (refuses_link c.spots hrest), rfl⟩
  have hmark : ∀ {tok : Token}, ¬ m.Opens tok → (exactly tok).Refuses ts := by
    intro tok htok
    exact refuses_exactly fun u hu he => htok (he ▸ hopen u hu)
  cases l with
  | disjunction => cases hl; exact hchain chains_disjunction
  | conjunction => cases hl; exact hchain chains_conjunction
  | sum => cases hl; exact hchain chains_sum
  | product => cases hl; exact hchain chains_product
  | denial =>
    cases hl
    refine takes_prefixed.mpr ⟨[], ts, t, .done (hmark ?_), h, rfl⟩
    rintro ⟨_, ⟨⟩, hle⟩
    exact absurd hle (by decide)
  | negation =>
    cases hl
    refine takes_prefixed.mpr ⟨[], ts, t, .done (hmark ?_), h, rfl⟩
    rintro ⟨_, ⟨⟩, hle⟩
    exact absurd hle (by decide)
  | comparison =>
    cases hl
    exact takes_comparison.mpr ⟨t, rest, h, .inr ⟨refuses_link spots_comparisonOp hrest, rfl, rfl⟩⟩
  | atom => cases hl

/-- What the reader of a level makes of a term and of what follows it. -/
inductive Resumes (p : Reader Term) (l : Level) (t : Term) :
    List (Spanned Token) → Term → List (Spanned Token) → Prop where
  | stops {rest : List (Spanned Token)} : Stops l rest → Resumes p l t rest t rest
  | chains {ops : Reader Operator} {m : Level} {rest rest' : List (Spanned Token)}
      {links : List (Operator × Term)} :
    Chains l ops m → Stops m rest → (link ops (reader p m)).Repeats rest links rest' →
    Resumes p l t rest (grouped t links) rest'

theorem Resumes.eq {p : Reader Term} {l : Level} {t u : Term} {rest rest' : List (Spanned Token)}
    (h : Resumes p l t rest u rest') (hl : l = .comparison ∨ ∀ op : Operator, op.level ≠ l) :
    Stops l rest ∧ t = u ∧ rest = rest' := by
  cases h with
  | stops h => exact ⟨h, rfl, rfl⟩
  | chains c _ _ =>
    obtain ⟨op, hop⟩ := c.level
    exact absurd hl (not_or.mpr ⟨c.apart, fun h => h op hop⟩)

def Completes (l : Level) (ts : List Token) (t : Term) : Prop :=
  ∀ d, ts.length ≤ d → ∀ used rest u rest', nodes used = ts →
    Resumes (nested d) l t rest u rest' → (reader (nested d) l).Takes (used ++ rest) u rest'

theorem completes_inner {l m : Level} {ts : List Token} {t : Term} (hl : l.inner = some m)
    (hd : Derives m ts t) (ih : Completes m ts t) : Completes l ts t := by
  intro d hlen used rest u rest' hused hr
  have hsound := sound_nested d
  cases hr with
  | stops hstop =>
    refine takes_of_inner hsound hl ?_ hstop.operators
      (ih d hlen used rest t rest hused (.stops (hstop.inner hl)))
    obtain ⟨v, vs, rfl, hv⟩ := hd.opens
    obtain ⟨w, ws, rfl, rfl, _⟩ := nodes_eq_cons hused
    intro x hx
    cases hx
    exact hv
  | chains c hstop hlinks =>
    cases hl.symm.trans c.inner
    rw [c.reads]
    exact (takes_chain c.spots (sound_reader hsound m)).mpr
      ⟨t, rest, _, ih d hlen used rest t rest hused (.stops hstop), hlinks, rfl⟩

theorem completes_chain {l m : Level} {tok : Token} {op : Operator} {ts us : List Token}
    {a b : Term} (htok : tok.operator? = some op) (hlevel : op.level = l) (hne : l ≠ .comparison)
    (hl : l.inner = some m) (iha : Completes l ts a) (ihb : Completes m us b) :
    Completes l (ts ++ tok :: us) (.binary op a b) := by
  intro d hlen used rest u rest' hused hr
  obtain ⟨left, _, rfl, rfl, hright⟩ := nodes_eq_append hused
  obtain ⟨v, right, rfl, rfl, rfl⟩ := nodes_eq_cons hright
  simp only [length_nodes, List.length_append, List.length_cons] at hlen
  have hgo : ∃ ops links, Chains l ops m ∧ Stops m rest ∧
      (link ops (reader (nested d) m)).Repeats rest links rest' ∧
      u = grouped (.binary op a b) links := by
    cases hr with
    | stops hstop =>
      obtain ⟨ops, m', c⟩ := exists_chains (hlevel ▸ hne)
      rw [hlevel] at c
      cases hl.symm.trans c.inner
      exact ⟨ops, [], c, hstop.inner hl, .done (refuses_link c.spots hstop.operators), rfl⟩
    | chains c hstop hlinks =>
      cases hl.symm.trans c.inner
      exact ⟨_, _, c, hstop, hlinks, rfl⟩
  obtain ⟨ops, links, c, hstop, hlinks, rfl⟩ := hgo
  have hoperand := ihb d (by simp; omega) right rest b rest rfl (.stops hstop)
  have hlink : (link ops (reader (nested d) m)).Takes (v :: (right ++ rest)) (op, b) rest :=
    (takes_link c.spots).mpr ⟨v, right ++ rest, rfl, htok, hlevel, hoperand⟩
  have hv : Stops m (v :: (right ++ rest)) :=
    stops_cons htok (by rw [hlevel, Level.rank_inner hl]; omega) _
  have hleft := iha d (by simp; omega) left (v :: (right ++ rest)) _ rest' rfl
    (.chains c hv (.more hlink hlinks))
  simpa using hleft

theorem completes_compare {tok : Token} {op : Operator} {ts us : List Token} {a b : Term}
    (htok : tok.operator? = some op) (hlevel : op.level = .comparison)
    (iha : Completes .sum ts a) (ihb : Completes .sum us b) :
    Completes .comparison (ts ++ tok :: us) (.binary op a b) := by
  intro d hlen used rest u rest' hused hr
  obtain ⟨hstop, rfl, rfl⟩ := hr.eq (.inl rfl)
  obtain ⟨left, _, rfl, rfl, hright⟩ := nodes_eq_append hused
  obtain ⟨v, right, rfl, rfl, rfl⟩ := nodes_eq_cons hright
  simp only [length_nodes, List.length_append, List.length_cons] at hlen
  have hv : Stops .sum (v :: (right ++ rest)) := stops_cons htok (by rw [hlevel]; decide) _
  have hleft := iha d (by simp; omega) left _ a _ rfl (.stops hv)
  have hoperand := ihb d (by simp; omega) right rest b rest rfl (.stops (hstop.inner rfl))
  have hlink : (link comparisonOp (sum (nested d))).Takes (v :: (right ++ rest)) (op, b) rest :=
    (takes_link spots_comparisonOp).mpr ⟨v, right ++ rest, rfl, htok, hlevel, hoperand⟩
  rw [List.append_assoc]
  exact takes_comparison.mpr ⟨a, v :: (right ++ rest), hleft, .inl ⟨(op, b), hlink, rfl⟩⟩

theorem completes_mark {l : Level} {tok : Token} {wrap : Term → Term}
    (operand : Reader Term → Reader Term)
    (hreader : ∀ p, reader p l = prefixed (exactly tok) wrap (operand p))
    (hl : ∀ op : Operator, op.level ≠ l) {ts : List Token} {t : Term} (ih : Completes l ts t) :
    Completes l (tok :: ts) (wrap t) := by
  intro d hlen used rest u rest' hused hr
  obtain ⟨hstop, rfl, rfl⟩ := hr.eq (.inr hl)
  obtain ⟨v, us, rfl, hv, rfl⟩ := nodes_eq_cons hused
  have htake := ih d (Nat.le_of_succ_le hlen) us rest t rest rfl (.stops hstop)
  rw [hreader] at htake ⊢
  obtain ⟨marks, mid, w, hm, hw, rfl⟩ := takes_prefixed.mp htake
  exact takes_prefixed.mpr
    ⟨() :: marks, mid, w, .more (takes_exactly.mpr ⟨v, rfl, hv⟩) hm, hw, rfl⟩

theorem refuses_intLiteral {v : Spanned Token} (h : ∀ digits, v.node ≠ .int digits)
    (rest : List (Spanned Token)) : intLiteral.Refuses (v :: rest) := by
  refine refuses_iff.mpr fun t rest' ht => ?_
  obtain ⟨digits, span, he, _⟩ := takes_number.mp ht
  cases he
  exact h digits rfl

theorem completes_token {tok : Token} {t : Term}
    (h : ∀ v : Spanned Token, v.node = tok → ∀ rest,
      intLiteral.Takes (v :: rest) t rest ∨
        (∀ digits, tok ≠ .int digits) ∧ literal.Takes (v :: rest) t rest) :
    Completes .atom [tok] t := by
  intro d _ used rest u rest' hused hr
  obtain ⟨_, rfl, rfl⟩ := hr.eq (.inr fun op => by cases op <;> decide)
  obtain ⟨v, vs, rfl, rfl, hvs⟩ := nodes_eq_cons hused
  obtain rfl : vs = [] := List.map_eq_nil_iff.mp hvs
  rcases h v rfl rest with hint | ⟨hne, hlit⟩
  · exact takes_or.mpr (.inl hint)
  · exact takes_or.mpr (.inr ⟨refuses_intLiteral hne rest, takes_or.mpr (.inl hlit)⟩)

theorem completes_unit : Completes .atom [.sign .lparen, .sign .rparen] (.tuple []) := by
  intro d _ used rest u rest' hused hr
  obtain ⟨_, rfl, rfl⟩ := hr.eq (.inr fun op => by cases op <;> decide)
  obtain ⟨v, vs, rfl, hv, hvs⟩ := nodes_eq_cons hused
  obtain ⟨w, ws, rfl, hw, hws⟩ := nodes_eq_cons hvs
  obtain rfl : ws = [] := List.map_eq_nil_iff.mp hws
  refine takes_or.mpr (.inr ⟨refuses_intLiteral (by simp [hv]) _, takes_or.mpr (.inr ⟨?_, ?_⟩)⟩)
  · exact (spots_token _).refuses_iff.mpr (by simp [hv])
  · refine takes_or.mpr (.inl ?_)
    simp only [unit, sign, takes_bind, takes_exactly, takes_pure]
    exact ⟨(), w :: rest, ⟨v, rfl, hv⟩, (), rest, ⟨w, rfl, hw⟩, trivial, rfl⟩

theorem takes_atom_of_parenthesised {p : Reader Term} {v w : Spanned Token}
    {ts rest : List (Spanned Token)} {t : Term} (hv : v.node = .sign .lparen)
    (hw : w.node ≠ .sign .rparen) (h : (parenthesised p).Takes (v :: w :: ts) t rest) :
    (atom p).Takes (v :: w :: ts) t rest := by
  refine takes_or.mpr (.inr ⟨refuses_intLiteral (by simp [hv]) _, takes_or.mpr (.inr ⟨?_, ?_⟩)⟩)
  · exact (spots_token _).refuses_iff.mpr (by simp [hv])
  · refine takes_or.mpr (.inr ⟨refuses_iff.mpr fun u rest' hu => ?_, h⟩)
    simp only [unit, sign, takes_bind, takes_exactly, takes_pure] at hu
    obtain ⟨_, _, ⟨_, ⟨⟩, _⟩, _, _, ⟨_, ⟨⟩, hright⟩, _⟩ := hu
    exact hw hright

def Accepts (p : Reader Term) (ts : List Token) (t : Term) : Prop :=
  ∀ used rest, nodes used = ts → Stops .disjunction rest → p.Takes (used ++ rest) t rest

theorem repeats_items {p : Reader Term} {rest : List (Spanned Token)}
    (hrest : (nextItem p).Refuses rest) (hstop : Stops .disjunction rest)
    {ps : List (List Token × Term)} (hps : ∀ q ∈ ps, Accepts p q.1 q.2)
    {used : List (Spanned Token)}
    (hused : nodes used = ps.flatMap fun q => Token.sign .comma :: q.1) :
    (nextItem p).Repeats (used ++ rest) (ps.map Prod.snd) rest ∧
      Stops .disjunction (used ++ rest) := by
  induction ps generalizing used with
  | nil =>
    obtain rfl : used = [] := List.map_eq_nil_iff.mp hused
    exact ⟨.done hrest, hstop⟩
  | cons q qs ih =>
    rw [List.forall_mem_cons] at hps
    rw [List.flatMap_cons] at hused
    obtain ⟨c, us, rfl, hc, hus⟩ := nodes_eq_cons hused
    obtain ⟨item, more, rfl, hitem, hmore⟩ := nodes_eq_append hus
    obtain ⟨hrepeats, hgo⟩ := ih hps.2 hmore
    have htake := hps.1 item (more ++ rest) hitem hgo
    refine ⟨.more (takes_nextItem.mpr ⟨c, item ++ (more ++ rest), by simp, hc, htake⟩) hrepeats, ?_⟩
    exact stops_of_none (by simp [hc, Token.operator?])

inductive Closes : Option Unit → List Token → Prop where
  | plain : Closes none [.sign .rparen]
  | comma : Closes (some ()) [.sign .comma, .sign .rparen]

theorem refuses_rparen {p : Reader Term} (hp : Sound p .disjunction) {w : Spanned Token}
    (hw : w.node = .sign .rparen) (rest : List (Spanned Token)) : p.Refuses (w :: rest) := by
  refine refuses_iff.mpr fun t mid ht => ?_
  obtain ⟨taken, he, hd⟩ := hp _ _ _ ht
  obtain ⟨x, xs, hx, m, hm, _⟩ := hd.opens
  obtain ⟨y, ys, rfl, rfl, _⟩ := nodes_eq_cons hx
  cases he
  rw [hw] at hm
  cases hm

theorem Closes.takes {comma : Option Unit} {closing : List Token} (h : Closes comma closing)
    {close : List (Spanned Token)} (hclose : nodes close = closing) {p : Reader Term}
    (hp : Sound p .disjunction) (rest : List (Spanned Token)) :
    (∃ w : Spanned Token, w.node = .sign .rparen ∧
      (optional (sign .comma)).Takes (close ++ rest) comma (w :: rest)) ∧
    (nextItem p).Refuses (close ++ rest) ∧ Stops .disjunction (close ++ rest) := by
  cases h with
  | plain =>
    obtain ⟨w, ws, rfl, hw, hws⟩ := nodes_eq_cons hclose
    obtain rfl : ws = [] := List.map_eq_nil_iff.mp hws
    refine ⟨⟨w, hw, takes_optional.mpr (.inr ⟨rfl, rfl, ?_⟩)⟩, refuses_iff.mpr ?_, stops_of_none ?_⟩
    · exact refuses_exactly (by simp [hw])
    · intro t mid ht
      obtain ⟨x, xs, he, hx, _⟩ := takes_nextItem.mp ht
      cases he
      rw [hw] at hx
      cases hx
    · simp [hw, Token.operator?]
  | comma =>
    obtain ⟨c, cs, rfl, hc, hcs⟩ := nodes_eq_cons hclose
    obtain ⟨w, ws, rfl, hw, hws⟩ := nodes_eq_cons hcs
    obtain rfl : ws = [] := List.map_eq_nil_iff.mp hws
    refine ⟨⟨w, hw, takes_optional.mpr (.inl ⟨(), rfl, ?_⟩)⟩, refuses_iff.mpr ?_, stops_of_none ?_⟩
    · exact takes_exactly.mpr ⟨c, rfl, hc⟩
    · intro t mid ht
      obtain ⟨x, xs, he, _, hx⟩ := takes_nextItem.mp ht
      cases he
      exact hx.not_refuses (refuses_rparen hp hw rest)
    · simp [hc, Token.operator?]

theorem completes_parentheses {p : List Token × Term} {ps : List (List Token × Term)}
    (hd : Derives .disjunction p.1 p.2) (ih : ∀ q ∈ p :: ps, Completes .disjunction q.1 q.2)
    {comma : Option Unit} {closing : List Token} (hclosing : Closes comma closing) :
    Completes .atom (.sign .lparen :: (p.1 ++ ps.flatMap (fun q => .sign .comma :: q.1) ++ closing))
      (if ps.isEmpty && comma.isNone then p.2 else .tuple (p.2 :: ps.map Prod.snd)) := by
  intro d hlen used rest u rest' hused hr
  obtain ⟨_, rfl, rfl⟩ := hr.eq (.inr fun op => by cases op <;> decide)
  obtain ⟨v, us, rfl, hv, hus⟩ := nodes_eq_cons hused
  obtain ⟨_, close, rfl, hinside, hclose⟩ := nodes_eq_append hus
  obtain ⟨first, more, rfl, hfirst, hmore⟩ := nodes_eq_append hinside
  simp only [List.length_cons, List.length_append] at hlen
  obtain ⟨d, rfl⟩ : ∃ e, d = e + 1 := ⟨d - 1, by omega⟩
  obtain ⟨⟨w, hw, hcomma⟩, hrefuses, hstop⟩ := hclosing.takes hclose (sound_nested (d + 1)) rest
  have haccepts : ∀ q ∈ ps, Accepts (nested (d + 1)) q.1 q.2 := by
    intro q hq item rest' hitem hrest'
    have hmem : Token.sign .comma :: q.1 ∈ ps.map fun q => Token.sign .comma :: q.1 :=
      List.mem_map_of_mem hq
    have hle := (List.sublist_flatten_of_mem hmem).length_le
    rw [List.length_cons, ← List.flatMap_def] at hle
    exact ih q (List.mem_cons_of_mem p hq) d (by omega) item rest' q.2 _ hitem (.stops hrest')
  obtain ⟨hitems, hgo⟩ := repeats_items hrefuses hstop haccepts hmore
  have htake := ih p List.mem_cons_self d (by omega) first (more ++ (close ++ rest)) p.2 _ hfirst
    (.stops hgo)
  have hparens : (parenthesised (nested (d + 1))).Takes (v :: (first ++ (more ++ (close ++ rest))))
      (if ps.isEmpty && comma.isNone then p.2 else .tuple (p.2 :: ps.map Prod.snd)) rest := by
    refine (takes_parenthesised (sound_nested _)).mpr ⟨v, _, w, rfl, hv, hw, p.2, _, _, _, comma,
      htake, hitems, hcomma, ?_⟩
    rw [List.isEmpty_map]
  obtain ⟨x, xs, hx, m, hm, _⟩ := hd.opens
  rw [hx] at hfirst
  obtain ⟨y, ys, rfl, rfl, _⟩ := nodes_eq_cons hfirst
  have hy : y.node ≠ .sign .rparen := by
    intro he
    rw [he] at hm
    cases hm
  simp only [List.cons_append, List.append_assoc]
  exact takes_atom_of_parenthesised hv hy hparens

end Grammar

open Grammar in
/-- The reader of a level takes whatever the level derives. -/
theorem Derives.completes {l : Level} {ts : List Token} {t : Term} (h : Derives l ts t) :
    Completes l ts t := by
  induction h with
  | inner hl hd ih => exact completes_inner hl hd ih
  | chain htok hlevel hne hl _ _ iha ihb => exact completes_chain htok hlevel hne hl iha ihb
  | compare htok hlevel _ _ iha ihb => exact completes_compare htok hlevel iha ihb
  | not _ ih =>
    exact completes_mark Grammar.comparison (fun _ => rfl) (fun op => by cases op <;> decide) ih
  | neg _ ih =>
    exact completes_mark Grammar.atom (fun _ => rfl) (fun op => by cases op <;> decide) ih
  | @int digits n hn =>
    refine completes_token fun v hv rest => .inl (Reader.takes_number.mpr ⟨digits, v.span, ?_, ?_⟩)
    · rw [← hv]
    · rw [hn, Option.bind_some, fitInt_eq_some.mpr rfl, Option.map_some]
  | unit => exact completes_unit
  | @group ts t hd ih =>
    have hone : ∀ q ∈ [(ts, t)], Completes .disjunction q.1 q.2 := List.forall_mem_singleton.mpr ih
    simpa using completes_parentheses hd hone .plain
  | tuple hne hd ih =>
    simpa [hne] using completes_parentheses (hd _ List.mem_cons_self) ih .plain
  | trailing hd ih => simpa using completes_parentheses (hd _ List.mem_cons_self) ih .comma
  | true | false | str | var | wildcard =>
    refine completes_token fun v hv rest => .inr ⟨by simp, ?_⟩
    refine (Reader.spots_token _ _ _ _).mpr ⟨v, rfl, ?_⟩
    simp [hv]

namespace Grammar

open Reader

theorem takes_term_iff {ts rest : List (Spanned Token)} {t : Term} :
    term.Takes ts t rest ↔ (nested (ts.length + 1)).Takes ts t rest := by
  have hterm : term ts = nested (ts.length + 1) ts := rfl
  unfold Takes
  rw [hterm]

theorem nested_succ (d : Nat) : nested (d + 1) = reader (nested d) .disjunction := rfl

theorem takes_term {used rest : List (Spanned Token)} {t : Term}
    (h : Derives .disjunction (nodes used) t) (hrest : Stops .disjunction rest) :
    term.Takes (used ++ rest) t rest := by
  rw [takes_term_iff, nested_succ]
  exact h.completes _ (by simp) used rest t rest rfl (.stops hrest)

theorem sound_term : Sound term .disjunction := by
  intro ts t rest h
  exact sound_nested _ ts t rest (takes_term_iff.mp h)

theorem readAll_term_iff (length : Nat) {ts : List (Spanned Token)} {t : Term} :
    term.readAll length ts = .ok t ↔ Derives .disjunction (nodes ts) t := by
  rw [readAll_eq_ok]
  constructor
  · intro h
    obtain ⟨used, rfl, hd⟩ := sound_term ts t [] h
    rwa [List.append_nil]
  · intro h
    have hstops : Stops .disjunction [] := stops_of_none (by simp)
    have htake := takes_term h hstops
    rwa [List.append_nil] at htake

end Grammar

theorem Derives.unique {ts : List Token} {t u : Term} (h : Derives .disjunction ts t)
    (k : Derives .disjunction ts u) : t = u := by
  obtain ⟨us, rfl⟩ := exists_nodes ts
  have hread := (Grammar.readAll_term_iff 0).mpr h
  rw [(Grammar.readAll_term_iff 0).mpr k] at hread
  cases hread
  rfl

namespace Grammar

open Reader

theorem takes_comparison_only {d : Nat} {left right : List (Spanned Token)}
    {v w : Spanned Token} {x y : Term} {op op' : Operator} (hx : Derives .sum (nodes left) x)
    (hy : Derives .sum (nodes right) y) (hv : v.node.operator? = some op)
    (hop : op.level = .comparison) (hw : w.node.operator? = some op')
    (hop' : op'.level = .comparison) (hd : (left ++ v :: right).length ≤ d)
    (rest : List (Spanned Token)) :
    (reader (nested d) .disjunction).Takes (left ++ v :: (right ++ w :: rest)) (.binary op x y)
      (w :: rest) := by
  simp only [List.length_append, List.length_cons] at hd
  have hvs : Stops .sum (v :: (right ++ w :: rest)) := stops_cons hv (by rw [hop]; decide) _
  have hws : Stops .sum (w :: rest) := stops_cons hw (by rw [hop']; decide) _
  have hleft := hx.completes d (by simp; omega) left _ x _ rfl (.stops hvs)
  have hright := hy.completes d (by simp; omega) right _ y _ rfl (.stops hws)
  have hcomparison : (reader (nested d) .comparison).Takes (left ++ v :: (right ++ w :: rest))
      (.binary op x y) (w :: rest) :=
    takes_comparison.mpr ⟨x, _, hleft, .inl ⟨(op, y),
      (takes_link spots_comparisonOp).mpr ⟨v, _, rfl, hv, hop, hright⟩, rfl⟩⟩
  have hopen : ∀ m : Level, m.rank ≤ Level.sum.rank →
      ∀ u ∈ (left ++ v :: (right ++ w :: rest)).head?, m.Opens u.node := by
    intro m hm u hu
    obtain ⟨tok, toks, htoks, k, hk, hle⟩ := hx.opens
    obtain ⟨z, zs, rfl, rfl, _⟩ := nodes_eq_cons htoks
    cases hu
    exact ⟨k, hk, Nat.le_trans hm hle⟩
  have hrest : ∀ l : Level, l ≠ .comparison →
      ∀ u ∈ (w :: rest).head?, operators l u.node = none := by
    intro l hl u hu
    cases hu
    simp [operators, hw, hop', hl.symm]
  have hsound := sound_nested d
  have hdenial := takes_of_inner hsound rfl (hopen _ (by decide)) (hrest .denial (by decide))
    hcomparison
  have hconjunction := takes_of_inner hsound rfl (hopen _ (by decide))
    (hrest .conjunction (by decide)) hdenial
  exact takes_of_inner hsound rfl (hopen _ (by decide)) (hrest .disjunction (by decide))
    hconjunction

theorem not_derives_comparisons {a b c : List Token} {o o' : Token} {x y : Term}
    {op op' : Operator} (hx : Derives .sum a x) (hy : Derives .sum b y)
    (ho : o.operator? = some op) (hop : op.level = .comparison) (ho' : o'.operator? = some op')
    (hop' : op'.level = .comparison) (t : Term) :
    ¬ Derives .disjunction (a ++ o :: (b ++ o' :: c)) t := by
  intro h
  obtain ⟨left, rfl⟩ := exists_nodes a
  obtain ⟨right, rfl⟩ := exists_nodes b
  obtain ⟨rest, rfl⟩ := exists_nodes c
  -- Spans play no part, so any will do for the two signs.
  let v : Spanned Token := ⟨o, ⟨0, 0⟩⟩
  let w : Spanned Token := ⟨o', ⟨0, 0⟩⟩
  have hnodes : nodes (left ++ v :: (right ++ w :: rest)) =
      nodes left ++ o :: (nodes right ++ o' :: nodes rest) := by simp [v, w]
  rw [← hnodes] at h
  have hstops : Stops .disjunction [] := stops_of_none (by simp)
  have hall := h.completes _ (Nat.le_refl _) _ [] t [] rfl (.stops hstops)
  rw [List.append_nil] at hall
  have hlen : (left ++ v :: right).length ≤ (nodes (left ++ v :: (right ++ w :: rest))).length := by
    simp only [length_nodes, List.length_append, List.length_cons]
    omega
  have honly := takes_comparison_only hx hy (v := v) ho hop (w := w) ho' hop' hlen rest
  cases (hall.unique honly).2

/-- Reading accepts exactly the grammar: reading a whole list of tokens gives a term if and only if
the tokens derive it, no list derives two terms, and comparisons do not chain. -/
theorem readAll_accepts (length : Nat) (ts : List (Spanned Token)) :
    (∀ t, term.readAll length ts = .ok t ↔ Derives .disjunction (nodes ts) t) ∧
    (∀ t u, Derives .disjunction (nodes ts) t → Derives .disjunction (nodes ts) u → t = u) ∧
    (∀ a o b o' c x y op op', nodes ts = a ++ o :: (b ++ o' :: c) →
      Derives .sum a x → Derives .sum b y → o.operator? = some op → op.level = .comparison →
      o'.operator? = some op' → op'.level = .comparison → ∀ t, term.readAll length ts ≠ .ok t) := by
  refine ⟨fun t => readAll_term_iff length, fun t u => Derives.unique, ?_⟩
  intro a o b o' c x y op op' hts hx hy ho hop ho' hop' t hread
  have hd := (readAll_term_iff length).mp hread
  rw [hts] at hd
  exact not_derives_comparisons hx hy ho hop ho' hop' t hd

theorem readAll_accepts_comparison :
    term.readAll 5 [⟨.ident "x", ⟨0, 1⟩⟩, ⟨.sign .lt, ⟨2, 3⟩⟩, ⟨.ident "y", ⟨4, 5⟩⟩] =
      .ok (.binary .lt (.var "x") (.var "y")) ∧
    ¬ ∃ t, term.readAll 9 [⟨.ident "x", ⟨0, 1⟩⟩, ⟨.sign .lt, ⟨2, 3⟩⟩, ⟨.ident "y", ⟨4, 5⟩⟩,
      ⟨.sign .lt, ⟨6, 7⟩⟩, ⟨.ident "z", ⟨8, 9⟩⟩] = .ok t := by
  have hvar : ∀ name, Derives .sum [.ident name] (.var name) := fun name =>
    .inner rfl (.inner rfl (.inner rfl .var))
  have hlt : Derives .comparison [.ident "x", .sign .lt, .ident "y"]
      (.binary .lt (.var "x") (.var "y")) := .compare rfl rfl (hvar "x") (hvar "y")
  constructor
  · exact ((readAll_accepts _ _).1 _).mpr (.inner rfl (.inner rfl (.inner rfl hlt)))
  · rintro ⟨t, ht⟩
    exact (readAll_accepts _ _).2.2 [.ident "x"] (.sign .lt) [.ident "y"] (.sign .lt)
      [.ident "z"] _ _ .lt .lt rfl (hvar "x") (hvar "y") rfl rfl rfl rfl t ht

end Grammar

end Term

end ViewUpkeep
