import ViewUpkeep.Proofs.Readers
import ViewUpkeep.Term.Grammar

/-!
The grammar of terms. A relation says which terms a list of tokens derives at each level, without a
word on how they are found. The readers are sound: whatever the reader of a level takes, the level
derives.
-/
namespace ViewUpkeep

def Token.operator? : Token → Option Operator
  | .keyword .or => some .or
  | .keyword .and => some .and
  | .sign .eq => some .eq
  | .sign .ne => some .ne
  | .sign .lt => some .lt
  | .sign .le => some .le
  | .sign .gt => some .gt
  | .sign .ge => some .ge
  | .sign .plus => some .add
  | .sign .minus => some .sub
  | .sign .star => some .mul
  | _ => none

namespace Term

/-- The levels of terms, the loosest first. -/
inductive Level where
  | disjunction | conjunction | denial | comparison | sum | product | negation | atom
deriving DecidableEq

namespace Level

def inner : Level → Option Level
  | .disjunction => some .conjunction
  | .conjunction => some .denial
  | .denial => some .comparison
  | .comparison => some .sum
  | .sum => some .product
  | .product => some .negation
  | .negation => some .atom
  | .atom => none

def rank : Level → Nat
  | .disjunction => 0
  | .conjunction => 1
  | .denial => 2
  | .comparison => 3
  | .sum => 4
  | .product => 5
  | .negation => 6
  | .atom => 7

theorem rank_inner {l m : Level} (h : l.inner = some m) : m.rank = l.rank + 1 := by
  cases l <;> cases h <;> rfl

end Level

end Term

def Operator.level : Operator → Term.Level
  | .or => .disjunction
  | .and => .conjunction
  | .eq | .ne | .lt | .le | .gt | .ge => .comparison
  | .add | .sub => .sum
  | .mul => .product

namespace Term

/-- The terms that a list of tokens derives at a level. Operators of one level are grouped to the
left, except that a comparison has no comparison as its operand. -/
inductive Derives : Level → List Token → Term → Prop where
  | inner {l m : Level} {ts : List Token} {t : Term} :
    l.inner = some m → Derives m ts t → Derives l ts t
  | chain {l m : Level} {tok : Token} {op : Operator} {ts us : List Token} {a b : Term} :
    tok.operator? = some op → op.level = l → l ≠ .comparison → l.inner = some m →
    Derives l ts a → Derives m us b → Derives l (ts ++ tok :: us) (.binary op a b)
  | compare {tok : Token} {op : Operator} {ts us : List Token} {a b : Term} :
    tok.operator? = some op → op.level = .comparison →
    Derives .sum ts a → Derives .sum us b → Derives .comparison (ts ++ tok :: us) (.binary op a b)
  | not {ts : List Token} {t : Term} :
    Derives .denial ts t → Derives .denial (.keyword .not :: ts) (.not t)
  | neg {ts : List Token} {t : Term} :
    Derives .negation ts t → Derives .negation (.sign .minus :: ts) (.neg t)
  | int {digits : String} {n : Int64} :
    Text.integer? digits.toList = some n.toInt → Derives .atom [.int digits] (.int n)
  | true : Derives .atom [.keyword .true] (.bool Bool.true)
  | false : Derives .atom [.keyword .false] (.bool Bool.false)
  | str {s : String} : Derives .atom [.str s] (.str s)
  | var {name : String} : Derives .atom [.ident name] (.var name)
  | wildcard : Derives .atom [.wildcard] .wildcard
  | unit : Derives .atom [.sign .lparen, .sign .rparen] (.tuple [])
  | group {ts : List Token} {t : Term} :
    Derives .disjunction ts t → Derives .atom (.sign .lparen :: (ts ++ [.sign .rparen])) t
  | tuple {p : List Token × Term} {ps : List (List Token × Term)} :
    ps ≠ [] → (∀ q ∈ p :: ps, Derives .disjunction q.1 q.2) →
    Derives .atom (.sign .lparen :: (p.1 ++ ps.flatMap (fun q => .sign .comma :: q.1) ++
      [.sign .rparen])) (.tuple (p.2 :: ps.map Prod.snd))
  | trailing {p : List Token × Term} {ps : List (List Token × Term)} :
    (∀ q ∈ p :: ps, Derives .disjunction q.1 q.2) →
    Derives .atom (.sign .lparen :: (p.1 ++ ps.flatMap (fun q => .sign .comma :: q.1) ++
      [.sign .comma, .sign .rparen])) (.tuple (p.2 :: ps.map Prod.snd))

def opening? : Token → Option Level
  | .int _ | .str _ | .ident _ | .wildcard => some .atom
  | .keyword .true | .keyword .false | .sign .lparen => some .atom
  | .sign .minus => some .negation
  | .keyword .not => some .denial
  | _ => none

def Level.Opens (l : Level) (t : Token) : Prop := ∃ m, opening? t = some m ∧ l.rank ≤ m.rank

theorem Derives.opens {l : Level} {ts : List Token} {t : Term} (h : Derives l ts t) :
    ∃ u us, ts = u :: us ∧ l.Opens u := by
  induction h with
  | inner hl _ ih =>
    obtain ⟨u, us, rfl, m, hm, hle⟩ := ih
    rw [Level.rank_inner hl] at hle
    exact ⟨u, us, rfl, m, hm, by omega⟩
  | chain _ _ _ _ _ _ ih _ =>
    obtain ⟨u, us, rfl, hu⟩ := ih
    exact ⟨u, _, rfl, hu⟩
  | compare _ _ _ _ ih _ =>
    obtain ⟨u, us, rfl, m, hm, hle⟩ := ih
    exact ⟨u, _, rfl, m, hm, Nat.le_of_succ_le hle⟩
  | not => exact ⟨_, _, rfl, .denial, rfl, by decide⟩
  | neg => exact ⟨_, _, rfl, .negation, rfl, by decide⟩
  | _ => exact ⟨_, _, rfl, .atom, rfl, by decide⟩

namespace Grammar

open Reader

def reader (p : Reader Term) : Level → Reader Term
  | .disjunction => disjunction p
  | .conjunction => conjunction p
  | .denial => denial p
  | .comparison => comparison p
  | .sum => sum p
  | .product => product p
  | .negation => negation p
  | .atom => atom p

def link (ops : Reader Operator) (operand : Reader Term) : Reader (Operator × Term) := do
  let o ← ops
  let t ← operand
  return (o, t)

def operators (l : Level) (t : Token) : Option Operator :=
  t.operator?.filter fun op => op.level = l

theorem operators_eq_some {l : Level} {t : Token} {op : Operator} :
    operators l t = some op ↔ t.operator? = some op ∧ op.level = l := by
  simp [operators, Option.filter_eq_some_iff]

structure Chains (l : Level) (ops : Reader Operator) (m : Level) : Prop where
  inner : l.inner = some m
  level : ∃ op : Operator, op.level = l
  apart : l ≠ .comparison
  spots : ops.Spots (operators l)
  reads (p : Reader Term) : reader p l = chain ops (reader p m)

theorem spots_signOp (s : Sign) (op : Operator) :
    (signOp s op).Spots fun t => if t = .sign s then some op else none := spots_exactly _ _

theorem spots_keywordOp (k : Keyword) (op : Operator) :
    (keywordOp k op).Spots fun t => if t = .keyword k then some op else none := spots_exactly _ _

theorem chains_disjunction : Chains .disjunction (keywordOp .or .or) .conjunction where
  inner := rfl
  level := ⟨.or, rfl⟩
  apart := by decide
  spots := (spots_keywordOp _ _).congr fun t => by
    cases t with
    | keyword k => cases k <;> rfl
    | sign s => cases s <;> rfl
    | _ => rfl
  reads _ := rfl

theorem chains_conjunction : Chains .conjunction (keywordOp .and .and) .denial where
  inner := rfl
  level := ⟨.and, rfl⟩
  apart := by decide
  spots := (spots_keywordOp _ _).congr fun t => by
    cases t with
    | keyword k => cases k <;> rfl
    | sign s => cases s <;> rfl
    | _ => rfl
  reads _ := rfl

theorem chains_sum : Chains .sum ((signOp .plus .add).or (signOp .minus .sub)) .product where
  inner := rfl
  level := ⟨.add, rfl⟩
  apart := by decide
  spots := ((spots_signOp _ _).or (spots_signOp _ _)).congr fun t => by
    cases t with
    | keyword k => cases k <;> rfl
    | sign s => cases s <;> rfl
    | _ => rfl
  reads _ := rfl

theorem chains_product : Chains .product (signOp .star .mul) .negation where
  inner := rfl
  level := ⟨.mul, rfl⟩
  apart := by decide
  spots := (spots_signOp _ _).congr fun t => by
    cases t with
    | keyword k => cases k <;> rfl
    | sign s => cases s <;> rfl
    | _ => rfl
  reads _ := rfl

theorem exists_chains {op : Operator} (h : op.level ≠ .comparison) :
    ∃ ops m, Chains op.level ops m := by
  cases op with
  | or => exact ⟨_, _, chains_disjunction⟩
  | and => exact ⟨_, _, chains_conjunction⟩
  | add | sub => exact ⟨_, _, chains_sum⟩
  | mul => exact ⟨_, _, chains_product⟩
  | eq | ne | lt | le | gt | ge => exact absurd rfl h

theorem spots_comparisonOp : comparisonOp.Spots (operators .comparison) := by
  refine Spots.congr ((spots_signOp _ _).or <| (spots_signOp _ _).or <| (spots_signOp _ _).or <|
    (spots_signOp _ _).or <| (spots_signOp _ _).or <| spots_signOp _ _) fun t => ?_
  cases t with
  | keyword k => cases k <;> rfl
  | sign s => cases s <;> rfl
  | _ => rfl

def Sound (p : Reader Term) (l : Level) : Prop :=
  ∀ ts t rest, p.Takes ts t rest → ∃ used, ts = used ++ rest ∧ Derives l (nodes used) t

theorem Sound.consumes {p : Reader Term} {l : Level} (h : Sound p l) : p.Consumes := by
  intro ts t rest ht
  obtain ⟨used, rfl, hd⟩ := h ts t rest ht
  obtain ⟨u, us, hu, _⟩ := hd.opens
  have hlen := congrArg List.length hu
  simp only [length_nodes, List.length_cons] at hlen
  simp only [List.length_append]
  omega

theorem link_consumes {ops : Reader Operator} {operand : Reader Term} {l m : Level}
    (hops : ops.Spots (operators l)) (h : Sound operand m) : (link ops operand).Consumes := by
  refine hops.consumes.bind fun o ts b rest ht => ?_
  obtain ⟨t, mid, ht, hp⟩ := takes_bind.mp ht
  obtain ⟨_, rfl⟩ := takes_pure.mp hp
  exact Nat.le_of_lt (h.consumes _ _ _ ht)

theorem takes_link {ops : Reader Operator} {operand : Reader Term} {l : Level}
    (hops : ops.Spots (operators l)) {ts rest : List (Spanned Token)} {x : Operator × Term} :
    (link ops operand).Takes ts x rest ↔ ∃ u us, ts = u :: us ∧ u.node.operator? = some x.1 ∧
      x.1.level = l ∧ operand.Takes us x.2 rest := by
  simp only [link, takes_bind, hops _ _ _, takes_pure, operators_eq_some]
  constructor
  · rintro ⟨o, us, ⟨u, rfl, hu, hl⟩, t, mid, ht, rfl, rfl⟩
    exact ⟨u, us, rfl, hu, hl, ht⟩
  · rintro ⟨u, us, rfl, hu, hl, ht⟩
    exact ⟨x.1, us, ⟨u, rfl, hu, hl⟩, x.2, rest, ht, rfl, rfl⟩

def grouped (first : Term) (rest : List (Operator × Term)) : Term :=
  rest.foldl (fun l r => .binary r.1 l r.2) first

@[simp] theorem grouped_nil (first : Term) : grouped first [] = first := rfl

@[simp] theorem grouped_cons (first : Term) (x : Operator × Term) (rest : List (Operator × Term)) :
    grouped first (x :: rest) = grouped (.binary x.1 first x.2) rest := rfl

theorem takes_chain {ops : Reader Operator} {operand : Reader Term} {l m : Level}
    (hops : ops.Spots (operators l)) (h : Sound operand m) {ts rest : List (Spanned Token)}
    {t : Term} :
    (chain ops operand).Takes ts t rest ↔ ∃ first mid links, operand.Takes ts first mid ∧
      (link ops operand).Repeats mid links rest ∧ t = grouped first links := by
  have hmany : ∀ mid links, (link ops operand).many.Takes mid links rest ↔
      (link ops operand).Repeats mid links rest := fun _ _ => takes_many (link_consumes hops h)
  unfold chain
  simp only [takes_bind, takes_pure]
  constructor
  · rintro ⟨first, mid, hf, links, mid', hl, rfl, rfl⟩
    exact ⟨first, mid, links, hf, (hmany mid links).mp hl, rfl⟩
  · rintro ⟨first, mid, links, hf, hl, rfl⟩
    exact ⟨first, mid, hf, links, rest, (hmany mid links).mpr hl, rfl, rfl⟩

theorem sound_links {ops : Reader Operator} {operand : Reader Term} {l m : Level}
    (c : Chains l ops m) (h : Sound operand m) {ts rest : List (Spanned Token)}
    {links : List (Operator × Term)} (hr : (link ops operand).Repeats ts links rest)
    {done : List Token} {first : Term} (hd : Derives l done first) :
    ∃ used, ts = used ++ rest ∧ Derives l (done ++ nodes used) (grouped first links) := by
  induction hr generalizing done first with
  | done _ => exact ⟨[], rfl, by simpa using hd⟩
  | more ht _ ih =>
    obtain ⟨u, us, rfl, hu, hl, ht⟩ := (takes_link c.spots).mp ht
    obtain ⟨right, rfl, hright⟩ := h _ _ _ ht
    obtain ⟨used, rfl, hused⟩ := ih (.chain hu hl c.apart c.inner hd hright)
    exact ⟨u :: (right ++ used), by simp, by simpa using hused⟩

theorem sound_chain {ops : Reader Operator} {operand : Reader Term} {l m : Level}
    (c : Chains l ops m) (h : Sound operand m) : Sound (chain ops operand) l := by
  intro ts t rest ht
  obtain ⟨first, mid, links, hf, hl, rfl⟩ := (takes_chain c.spots h).mp ht
  obtain ⟨used, rfl, hd⟩ := h ts first mid hf
  obtain ⟨more, rfl, hd⟩ := sound_links c h hl (.inner c.inner hd)
  exact ⟨used ++ more, by simp, by simpa using hd⟩

def marked (wrap : Term → Term) (marks : List Unit) (t : Term) : Term :=
  marks.foldr (fun _ t => wrap t) t

theorem takes_prefixed {tok : Token} {wrap : Term → Term} {operand : Reader Term}
    {ts rest : List (Spanned Token)} {t : Term} :
    (prefixed (exactly tok) wrap operand).Takes ts t rest ↔ ∃ marks mid u,
      (exactly tok).Repeats ts marks mid ∧ operand.Takes mid u rest ∧ t = marked wrap marks u := by
  unfold prefixed
  simp only [takes_bind, takes_pure, takes_many (consumes_exactly tok)]
  constructor
  · rintro ⟨marks, mid, hm, u, mid', hu, rfl, rfl⟩
    exact ⟨marks, mid, u, hm, hu, rfl⟩
  · rintro ⟨marks, mid, u, hm, hu, rfl⟩
    exact ⟨marks, mid, hm, u, rest, hu, rfl, rfl⟩

theorem sound_prefixed {tok : Token} {wrap : Term → Term} {operand : Reader Term} {l m : Level}
    (hl : l.inner = some m) (hwrap : ∀ ts t, Derives l ts t → Derives l (tok :: ts) (wrap t))
    (h : Sound operand m) : Sound (prefixed (exactly tok) wrap operand) l := by
  intro ts t rest ht
  obtain ⟨marks, mid, u, hm, hu, rfl⟩ := takes_prefixed.mp ht
  clear ht
  induction hm with
  | done _ =>
    obtain ⟨used, rfl, hd⟩ := h _ _ _ hu
    exact ⟨used, rfl, .inner hl hd⟩
  | more ht _ ih =>
    obtain ⟨v, rfl, rfl⟩ := takes_exactly.mp ht
    obtain ⟨used, rfl, hd⟩ := ih hu
    exact ⟨v :: used, rfl, hwrap _ _ hd⟩

theorem takes_comparison {p : Reader Term} {ts rest : List (Spanned Token)} {t : Term} :
    (comparison p).Takes ts t rest ↔ ∃ a mid, (sum p).Takes ts a mid ∧
      ((∃ x, (link comparisonOp (sum p)).Takes mid x rest ∧ t = .binary x.1 a x.2) ∨
        (link comparisonOp (sum p)).Refuses mid ∧ rest = mid ∧ t = a) := by
  unfold comparison
  simp only [takes_bind, takes_pure]
  constructor
  · rintro ⟨a, mid, ha, o, mid', ho, rfl, rfl⟩
    refine ⟨a, mid, ha, ?_⟩
    rcases takes_optional.mp ho with ⟨x, rfl, hx⟩ | ⟨rfl, rfl, hn⟩
    · exact .inl ⟨x, hx, rfl⟩
    · exact .inr ⟨hn, rfl, rfl⟩
  · rintro ⟨a, mid, ha, ⟨x, hx, rfl⟩ | ⟨hn, rfl, rfl⟩⟩
    · exact ⟨a, mid, ha, some x, rest, takes_optional.mpr (.inl ⟨x, rfl, hx⟩), rfl, rfl⟩
    · exact ⟨t, rest, ha, none, rest, takes_optional.mpr (.inr ⟨rfl, rfl, hn⟩), rfl, rfl⟩

theorem sound_comparison {p : Reader Term} (h : Sound (sum p) .sum) :
    Sound (comparison p) .comparison := by
  intro ts t rest ht
  obtain ⟨a, mid, ha, hrest⟩ := takes_comparison.mp ht
  obtain ⟨left, rfl, hleft⟩ := h _ _ _ ha
  rcases hrest with ⟨x, hx, rfl⟩ | ⟨_, rfl, rfl⟩
  · obtain ⟨u, us, rfl, hu, hl, hb⟩ := (takes_link spots_comparisonOp).mp hx
    obtain ⟨right, rfl, hright⟩ := h _ _ _ hb
    exact ⟨left ++ u :: right, by simp, by simpa using Derives.compare hu hl hleft hright⟩
  · exact ⟨left, rfl, .inner rfl hleft⟩

def nextItem (p : Reader Term) : Reader Term := do sign .comma; p

theorem takes_nextItem {p : Reader Term} {ts rest : List (Spanned Token)} {t : Term} :
    (nextItem p).Takes ts t rest ↔
      ∃ u us, ts = u :: us ∧ u.node = .sign .comma ∧ p.Takes us t rest := by
  simp only [nextItem, sign, takes_bind, takes_exactly]
  constructor
  · rintro ⟨_, us, ⟨u, rfl, hu⟩, ht⟩
    exact ⟨u, us, rfl, hu, ht⟩
  · rintro ⟨u, us, rfl, hu, ht⟩
    exact ⟨(), us, ⟨u, rfl, hu⟩, ht⟩

theorem nextItem_consumes {p : Reader Term} {l : Level} (h : Sound p l) : (nextItem p).Consumes :=
  (consumes_exactly _).bind fun _ ts t rest ht => Nat.le_of_lt (h.consumes ts t rest ht)

theorem takes_parenthesised {p : Reader Term} {l : Level} (h : Sound p l)
    {ts rest : List (Spanned Token)} {t : Term} :
    (parenthesised p).Takes ts t rest ↔ ∃ u us v, ts = u :: us ∧ u.node = .sign .lparen ∧
      v.node = .sign .rparen ∧ ∃ first mid items stop comma, p.Takes us first mid ∧
        (nextItem p).Repeats mid items stop ∧
        (optional (sign .comma)).Takes stop comma (v :: rest) ∧
        t = if items.isEmpty && comma.isNone then first else .tuple (first :: items) := by
  have hmany : ∀ mid items stop, (do sign .comma; p : Reader Term).many.Takes mid items stop ↔
      (nextItem p).Repeats mid items stop := fun _ _ _ => takes_many (nextItem_consumes h)
  unfold parenthesised
  simp only [takes_between, takes_bind, takes_pure, hmany]
  constructor
  · rintro ⟨u, us, v, hts, hu, hv, first, mid, hf, items, stop, hi, comma, _, hc, rfl, rfl⟩
    exact ⟨u, us, v, hts, hu, hv, first, mid, items, stop, comma, hf, hi, hc, rfl⟩
  · rintro ⟨u, us, v, hts, hu, hv, first, mid, items, stop, comma, hf, hi, hc, rfl⟩
    exact ⟨u, us, v, hts, hu, hv, first, mid, hf, items, stop, hi, comma, _, hc, rfl, rfl⟩

theorem sound_items {p : Reader Term} {l : Level} (h : Sound p l)
    {ts stop : List (Spanned Token)} {items : List Term} (hr : (nextItem p).Repeats ts items stop) :
    ∃ used, ∃ ps : List (List Token × Term), ts = used ++ stop ∧
      nodes used = ps.flatMap (fun q => .sign .comma :: q.1) ∧ items = ps.map Prod.snd ∧
      ∀ q ∈ ps, Derives l q.1 q.2 := by
  induction hr with
  | done _ => exact ⟨[], [], by simp⟩
  | more ht _ ih =>
    obtain ⟨u, us, rfl, hu, ht⟩ := takes_nextItem.mp ht
    obtain ⟨item, rfl, hd⟩ := h _ _ _ ht
    obtain ⟨used, ps, rfl, hused, rfl, hps⟩ := ih
    refine ⟨u :: (item ++ used), (nodes item, _) :: ps, by simp, ?_, rfl, ?_⟩
    · simp [hu, hused]
    · exact List.forall_mem_cons.mpr ⟨hd, hps⟩

theorem sound_parenthesised {p : Reader Term} (h : Sound p .disjunction) :
    Sound (parenthesised p) .atom := by
  intro ts t rest ht
  obtain ⟨u, us, v, rfl, hu, hv, first, mid, items, stop, comma, hf, hi, hc, rfl⟩ :=
    (takes_parenthesised h).mp ht
  obtain ⟨one, rfl, hone⟩ := h _ _ _ hf
  obtain ⟨more, ps, rfl, hmore, rfl, hps⟩ := sound_items h hi
  have hall : ∀ q ∈ (nodes one, first) :: ps, Derives .disjunction q.1 q.2 :=
    List.forall_mem_cons.mpr ⟨hone, hps⟩
  rcases takes_optional.mp hc with ⟨c, rfl, hsign⟩ | ⟨rfl, rfl, _⟩
  · obtain ⟨w, rfl, hw⟩ := takes_exactly.mp hsign
    refine ⟨u :: (one ++ more ++ [w, v]), by simp, ?_⟩
    simpa [hu, hv, hw, hmore] using Derives.trailing hall
  · refine ⟨u :: (one ++ more ++ [v]), by simp, ?_⟩
    cases ps with
    | nil => simpa [hu, hv, hmore] using Derives.group hone
    | cons q qs => simpa [hu, hv, hmore] using Derives.tuple (List.cons_ne_nil q qs) hall

theorem fitInt_eq_some {n : Int} {m : Int64} : fitInt n = some m ↔ m.toInt = n := by
  unfold fitInt
  constructor
  · intro h
    split at h
    · cases h
      exact Int64.toInt_ofInt_of_le (by omega) (by omega)
    · cases h
  · rintro rfl
    have hle := m.le_toInt
    have hlt := m.toInt_lt
    rw [if_pos (by omega), Int64.ofInt_toInt]

theorem sound_intLiteral : Sound intLiteral .atom := by
  intro ts t rest ht
  obtain ⟨digits, span, rfl, hfit⟩ := takes_number.mp ht
  obtain ⟨n, hn, rfl⟩ := Option.map_eq_some_iff.mp hfit
  obtain ⟨m, hm, hn⟩ := Option.bind_eq_some_iff.mp hn
  rw [← fitInt_eq_some.mp hn] at hm
  exact ⟨[⟨.int digits, span⟩], rfl, .int hm⟩

theorem sound_literal : Sound literal .atom := by
  intro ts t rest ht
  obtain ⟨u, rfl, hu⟩ := (spots_token _ _ _ _).mp ht
  refine ⟨[u], rfl, ?_⟩
  simp only [nodes_cons, nodes_nil]
  generalize u.node = tok at hu
  split at hu
  · cases hu; exact .true
  · cases hu; exact .false
  · cases hu; exact .str
  · cases hu; exact .var
  · cases hu; exact .wildcard
  · cases hu

theorem sound_unit : Sound unit .atom := by
  intro ts t rest ht
  simp only [unit, sign, takes_bind, takes_exactly, takes_pure] at ht
  obtain ⟨_, _, ⟨u, rfl, hu⟩, _, _, ⟨v, rfl, hv⟩, rfl, rfl⟩ := ht
  refine ⟨[u, v], rfl, ?_⟩
  simpa [hu, hv] using Derives.unit

theorem Sound.or {p q : Reader Term} {l : Level} (hp : Sound p l) (hq : Sound q l) :
    Sound (p.or q) l := by
  intro ts t rest ht
  rcases takes_or.mp ht with ht | ⟨_, ht⟩
  · exact hp ts t rest ht
  · exact hq ts t rest ht

/-- The reader of each level is sound if the one for the terms inside parentheses is. -/
theorem sound_reader {p : Reader Term} (h : Sound p .disjunction) (l : Level) :
    Sound (reader p l) l := by
  have hatom : Sound (atom p) .atom :=
    sound_intLiteral.or (sound_literal.or (sound_unit.or (sound_parenthesised h)))
  have hnegation : Sound (negation p) .negation :=
    sound_prefixed rfl (fun _ _ => Derives.neg) hatom
  have hproduct : Sound (product p) .product := sound_chain chains_product hnegation
  have hsum : Sound (sum p) .sum := sound_chain chains_sum hproduct
  have hcomparison : Sound (comparison p) .comparison := sound_comparison hsum
  have hdenial : Sound (denial p) .denial :=
    sound_prefixed rfl (fun _ _ => Derives.not) hcomparison
  have hconjunction : Sound (conjunction p) .conjunction := sound_chain chains_conjunction hdenial
  cases l with
  | disjunction => exact sound_chain chains_disjunction hconjunction
  | conjunction => exact hconjunction
  | denial => exact hdenial
  | comparison => exact hcomparison
  | sum => exact hsum
  | product => exact hproduct
  | negation => exact hnegation
  | atom => exact hatom

theorem sound_nested (depth : Nat) : Sound (nested depth) .disjunction := by
  induction depth with
  | zero =>
    rintro ts t rest ⟨stop, h⟩
    cases h
  | succ depth ih => exact sound_reader ih .disjunction

end Grammar

end Term

end ViewUpkeep
