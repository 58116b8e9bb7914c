import ViewUpkeep.Reader

/-!
What readers take. Where a reader was stopped matters for the report of a fault only; here a reader
either takes a value and leaves a rest or refuses. Each combinator has one law for taking and, where
something is tried after it, one for refusing. Repetition is greedy: it ends where the next item is
refused.
-/
namespace ViewUpkeep

def nodes (ts : List (Spanned Token)) : List Token := ts.map Spanned.node

@[simp] theorem nodes_nil : nodes [] = [] := rfl

@[simp] theorem nodes_cons (t : Spanned Token) (ts : List (Spanned Token)) :
    nodes (t :: ts) = t.node :: nodes ts := rfl

@[simp] theorem nodes_append (ts us : List (Spanned Token)) :
    nodes (ts ++ us) = nodes ts ++ nodes us := List.map_append

@[simp] theorem length_nodes (ts : List (Spanned Token)) : (nodes ts).length = ts.length :=
  List.length_map _

theorem nodes_eq_cons {ts : List (Spanned Token)} {t : Token} {us : List Token}
    (h : nodes ts = t :: us) : ∃ u rest, ts = u :: rest ∧ u.node = t ∧ nodes rest = us :=
  List.map_eq_cons_iff.mp h

theorem nodes_eq_append {ts : List (Spanned Token)} {us vs : List Token}
    (h : nodes ts = us ++ vs) : ∃ a b, ts = a ++ b ∧ nodes a = us ∧ nodes b = vs :=
  List.map_eq_append_iff.mp h

theorem exists_nodes (ts : List Token) : ∃ us, nodes us = ts :=
  ⟨ts.map fun t => ⟨t, ⟨0, 0⟩⟩, by simp [nodes, Function.comp_def]⟩

namespace Reader

variable {α β : Type} {p q : Reader α} {ts rest : List (Spanned Token)}

def Takes (p : Reader α) (ts : List (Spanned Token)) (a : α) (rest : List (Spanned Token)) : Prop :=
  ∃ stop, p ts = .done a rest stop

def Refuses (p : Reader α) (ts : List (Spanned Token)) : Prop := ∃ stop, p ts = .failed stop

theorem takes_or_refuses (p : Reader α) (ts : List (Spanned Token)) :
    (∃ a rest, p.Takes ts a rest) ∨ p.Refuses ts := by
  cases h : p ts with
  | done a rest stop => exact .inl ⟨a, rest, stop, h⟩
  | failed stop => exact .inr ⟨stop, h⟩

theorem Takes.unique {a b : α} {rest' : List (Spanned Token)} (h : p.Takes ts a rest)
    (k : p.Takes ts b rest') : a = b ∧ rest = rest' := by
  obtain ⟨stop, h⟩ := h
  obtain ⟨stop', k⟩ := k
  rw [h] at k
  cases k
  exact ⟨rfl, rfl⟩

theorem Takes.not_refuses {a : α} (h : p.Takes ts a rest) : ¬ p.Refuses ts := by
  obtain ⟨stop, h⟩ := h
  rintro ⟨stop', k⟩
  rw [h] at k
  cases k

theorem refuses_iff : p.Refuses ts ↔ ∀ a rest, ¬ p.Takes ts a rest := by
  constructor
  · exact fun h a rest ht => ht.not_refuses h
  · exact fun h => (takes_or_refuses p ts).resolve_left fun ⟨a, rest, ht⟩ => h a rest ht

theorem noting_eq_done {r : Reading α} {earlier : Option Stop} {a : α} :
    (∃ stop, r.noting earlier = .done a rest stop) ↔ ∃ stop, r = .done a rest stop := by
  cases r with
  | done b rest' stop => simp [Reading.noting]
  | failed stop => cases earlier <;> simp [Reading.noting]

@[simp] theorem takes_pure {a b : α} :
    (pure a : Reader α).Takes ts b rest ↔ b = a ∧ rest = ts := by
  constructor
  · rintro ⟨stop, h⟩
    cases h
    exact ⟨rfl, rfl⟩
  · rintro ⟨rfl, rfl⟩
    exact ⟨none, rfl⟩

theorem takes_bind {f : α → Reader β} {b : β} :
    (p >>= f).Takes ts b rest ↔ ∃ a mid, p.Takes ts a mid ∧ (f a).Takes mid b rest := by
  change (∃ stop, andThen p f ts = .done b rest stop) ↔ _
  unfold andThen
  cases hp : p ts with
  | failed stop => simp [Takes, hp]
  | done a mid stop =>
    simp only [noting_eq_done]
    constructor
    · exact fun h => ⟨a, mid, ⟨stop, hp⟩, h⟩
    · rintro ⟨a', mid', ⟨stop', hp'⟩, h⟩
      rw [hp] at hp'
      cases hp'
      exact h

theorem takes_or {a : α} :
    (p.or q).Takes ts a rest ↔ p.Takes ts a rest ∨ p.Refuses ts ∧ q.Takes ts a rest := by
  unfold Takes Refuses Reader.or
  cases hp : p ts with
  | failed stop => simp [noting_eq_done]
  | done b mid stop => simp

theorem takes_optional {o : Option α} :
    p.optional.Takes ts o rest ↔
      (∃ a, o = some a ∧ p.Takes ts a rest) ∨ o = none ∧ rest = ts ∧ p.Refuses ts := by
  unfold Takes Refuses Reader.optional
  cases hp : p ts with
  | failed stop => simp [eq_comm]
  | done b mid stop =>
    simp only [Reading.done.injEq, exists_and_left, exists_eq', and_true, reduceCtorEq,
      exists_false, and_false, or_false]
    constructor
    · rintro ⟨rfl, rfl⟩
      exact ⟨b, rfl, rfl, rfl⟩
    · rintro ⟨a, rfl, rfl, rfl⟩
      exact ⟨rfl, rfl⟩

def Spots (p : Reader α) (f : Token → Option α) : Prop :=
  ∀ ts a rest, p.Takes ts a rest ↔ ∃ t, ts = t :: rest ∧ f t.node = some a

theorem spots_token (f : Token → Option α) : (token f).Spots f := by
  intro ts a rest
  constructor
  · rintro ⟨stop, h⟩
    unfold token at h
    split at h
    · cases h
    · rename_i t us
      split at h
      · rename_i b hb
        cases h
        exact ⟨t, rfl, hb⟩
      · cases h
  · rintro ⟨t, rfl, ht⟩
    exact ⟨none, by simp [token, ht]⟩

theorem takes_exactly {t : Token} {u : Unit} :
    (exactly t).Takes ts u rest ↔ ∃ v, ts = v :: rest ∧ v.node = t := by
  constructor
  · rintro ⟨stop, h⟩
    unfold exactly at h
    split at h
    · cases h
    · rename_i v us
      split at h
      · rename_i hv
        cases h
        exact ⟨v, rfl, hv⟩
      · cases h
  · rintro ⟨v, rfl, hv⟩
    exact ⟨none, by simp [exactly, hv]⟩

theorem spots_exactly (t : Token) (a : α) :
    (do exactly t; return a : Reader α).Spots fun u => if u = t then some a else none := by
  intro ts b rest
  simp only [takes_bind, takes_exactly, takes_pure, Option.ite_none_right_eq_some,
    Option.some.injEq]
  constructor
  · rintro ⟨_, mid, ⟨v, rfl, hv⟩, rfl, rfl⟩
    exact ⟨v, rfl, hv, rfl⟩
  · rintro ⟨v, rfl, hv, rfl⟩
    exact ⟨(), rest, ⟨v, rfl, hv⟩, rfl, rfl⟩

theorem Spots.refuses_iff {f : Token → Option α} (h : p.Spots f) :
    p.Refuses ts ↔ ∀ t ∈ ts.head?, f t.node = none := by
  rw [Reader.refuses_iff]
  constructor
  · intro hr t ht
    obtain ⟨us, rfl⟩ := List.head?_eq_some_iff.mp ht
    cases hf : f t.node with
    | none => rfl
    | some a => exact absurd ((h _ a us).mpr ⟨t, rfl, hf⟩) (hr a us)
  · intro hn a rest ht
    obtain ⟨t, rfl, hf⟩ := (h ts a rest).mp ht
    rw [hn t rfl] at hf
    cases hf

theorem Spots.or {f g : Token → Option α} (hp : p.Spots f) (hq : q.Spots g) :
    (p.or q).Spots fun t => (f t).or (g t) := by
  intro ts a rest
  simp only [takes_or, hp ts a rest, hp.refuses_iff, hq ts a rest, Option.or_eq_some_iff]
  constructor
  · rintro (⟨t, rfl, ht⟩ | ⟨hn, t, rfl, ht⟩)
    · exact ⟨t, rfl, .inl ht⟩
    · exact ⟨t, rfl, .inr ⟨hn t rfl, ht⟩⟩
  · rintro ⟨t, rfl, ht | ⟨hn, ht⟩⟩
    · exact .inl ⟨t, rfl, ht⟩
    · exact .inr ⟨by simpa using hn, t, rfl, ht⟩

theorem Spots.congr {f g : Token → Option α} (h : p.Spots f) (hfg : ∀ t, f t = g t) : p.Spots g :=
  funext hfg ▸ h

theorem takes_number {fit : List Char → Option α} {fault : String → NumberFault} {a : α} :
    (number fit fault).Takes ts a rest ↔
      ∃ digits span, ts = ⟨.int digits, span⟩ :: rest ∧ fit digits.toList = some a := by
  constructor
  · rintro ⟨stop, h⟩
    unfold number at h
    split at h
    · rename_i digits span us
      split at h
      · rename_i b hb
        cases h
        exact ⟨digits, span, rfl, hb⟩
      · cases h
    · cases h
  · rintro ⟨digits, span, rfl, hfit⟩
    exact ⟨none, by simp [number, hfit]⟩

theorem takes_between {left right : Sign} {a : α} :
    (between left right p).Takes ts a rest ↔
      ∃ u us v, ts = u :: us ∧ u.node = .sign left ∧ v.node = .sign right ∧
        p.Takes us a (v :: rest) := by
  unfold between sign
  simp only [takes_bind, takes_exactly, takes_pure]
  constructor
  · rintro ⟨_, us, ⟨u, rfl, hu⟩, b, mid, hp, _, _, ⟨v, rfl, hv⟩, rfl, rfl⟩
    exact ⟨u, us, v, rfl, hu, hv, hp⟩
  · rintro ⟨u, us, v, rfl, hu, hv, hp⟩
    exact ⟨(), us, ⟨u, rfl, hu⟩, a, v :: rest, hp, (), rest, ⟨v, rfl, hv⟩, rfl, rfl⟩

inductive Repeats (p : Reader α) :
    List (Spanned Token) → List α → List (Spanned Token) → Prop where
  | done {ts : List (Spanned Token)} : p.Refuses ts → Repeats p ts [] ts
  | more {ts mid rest : List (Spanned Token)} {a : α} {as : List α} :
    p.Takes ts a mid → Repeats p mid as rest → Repeats p ts (a :: as) rest

def Consumes (p : Reader α) : Prop :=
  ∀ ts a rest, p.Takes ts a rest → rest.length < ts.length

theorem Spots.consumes {f : Token → Option α} (h : p.Spots f) : p.Consumes := by
  intro ts a rest ht
  obtain ⟨t, rfl, _⟩ := (h ts a rest).mp ht
  simp

theorem consumes_exactly (t : Token) : (exactly t).Consumes := by
  intro ts _ rest ht
  obtain ⟨v, rfl, _⟩ := takes_exactly.mp ht
  simp

theorem Consumes.bind {f : α → Reader β} (hp : p.Consumes)
    (hf : ∀ a ts b rest, (f a).Takes ts b rest → rest.length ≤ ts.length) :
    (p >>= f).Consumes := by
  intro ts b rest ht
  obtain ⟨a, mid, ha, hb⟩ := takes_bind.mp ht
  exact Nat.lt_of_le_of_lt (hf a mid b rest hb) (hp ts a mid ha)

theorem takes_upTo (hp : p.Consumes) {n : Nat} (hn : ts.length < n) {as : List α} :
    (upTo n p).Takes ts as rest ↔ p.Repeats ts as rest := by
  -- Each item shortens the list, so the bound is never reached.
  induction n generalizing ts as with
  | zero => omega
  | succ n ih =>
    unfold Takes upTo
    cases h : p ts with
    | failed stop =>
      constructor
      · rintro ⟨_, hd⟩
        cases hd
        exact .done ⟨stop, h⟩
      · rintro (hr | ⟨ht, _⟩)
        · exact ⟨_, rfl⟩
        · exact absurd ⟨stop, h⟩ ht.not_refuses
    | done a mid stop =>
      have htake : p.Takes ts a mid := ⟨stop, h⟩
      have hlt := hp ts a mid htake
      have ih' := fun as => @ih mid (by omega) as
      constructor
      · rintro ⟨stop', hd⟩
        cases hu : upTo n p mid with
        | failed s => simp [hu] at hd
        | done bs rest' s =>
          simp only [hu, Reading.done.injEq] at hd
          obtain ⟨rfl, rfl, _⟩ := hd
          exact .more htake ((ih' bs).mp ⟨s, hu⟩)
      · rintro (hr | ⟨ht, hrest⟩)
        · exact absurd hr htake.not_refuses
        · obtain ⟨rfl, rfl⟩ := htake.unique ht
          obtain ⟨s, hu⟩ := (ih' _).mpr hrest
          simp [hu]

/-- Greedy repetition of a reader that takes a token at least. -/
theorem takes_many (hp : p.Consumes) {as : List α} :
    p.many.Takes ts as rest ↔ p.Repeats ts as rest :=
  takes_upTo hp (Nat.lt_succ_self _)

theorem takes_endOfInput {u : Unit} : endOfInput.Takes ts u rest ↔ ts = [] ∧ rest = [] := by
  cases ts <;> simp [Takes, endOfInput, eq_comm]

theorem readAll_eq_ok {length : Nat} {a : α} : p.readAll length ts = .ok a ↔ p.Takes ts a [] := by
  have hall : ∀ b rest, (do let a ← p; endOfInput; return a : Reader α).Takes ts b rest ↔
      p.Takes ts b [] ∧ rest = [] := by
    intro b rest
    simp only [takes_bind, takes_endOfInput, takes_pure]
    constructor
    · rintro ⟨c, mid, hp, _, mid', ⟨rfl, rfl⟩, rfl, rfl⟩
      exact ⟨hp, rfl⟩
    · rintro ⟨hp, rfl⟩
      exact ⟨b, [], hp, (), [], ⟨rfl, rfl⟩, rfl, rfl⟩
  unfold readAll
  cases h : (do let a ← p; endOfInput; return a : Reader α) ts with
  | failed stop =>
    have hnot : ¬ p.Takes ts a [] := fun ht => ((hall a []).mpr ⟨ht, rfl⟩).not_refuses ⟨stop, h⟩
    simp [hnot]
  | done b rest stop =>
    obtain ⟨hb, _⟩ := (hall b rest).mp ⟨stop, h⟩
    simp only [Except.ok.injEq]
    constructor
    · rintro rfl
      exact hb
    · exact fun ha => (hb.unique ha).1

end Reader

end ViewUpkeep
