import ViewUpkeep.Console
import ViewUpkeep.Proofs.Ink

/-!
Lines at the console. The console looks at characters, one line after the other, and never reads
tokens. What it decides is a matter of the visible characters of the joined lines: they are complete
when no more brackets are opened than closed and the last visible character is a semicolon. Brackets
in quoted texts count as well, and two slashes in a quoted text hide the rest of their line. The
brackets are counted in 32 bits, and the program breaks off where that does not suffice.
-/
namespace ViewUpkeep

open Text (ink isVisible isBlank)

namespace Text

variable {cs : List Char}

theorem exists_trimLeft (cs : List Char) :
    ∃ bs, (∀ b ∈ bs, isBlank b = true) ∧ cs = bs ++ trimLeft cs :=
  ⟨cs.takeWhile isBlank, fun _ => List.mem_takeWhile_imp, List.takeWhile_append_dropWhile.symm⟩

theorem exists_trimRight (cs : List Char) :
    ∃ bs, (∀ b ∈ bs, isBlank b = true) ∧ cs = trimRight cs ++ bs := by
  obtain ⟨bs, hbs, heq⟩ := exists_trimLeft cs.reverse
  refine ⟨bs.reverse, by simpa using hbs, ?_⟩
  rw [trimRight, ← List.reverse_append]
  exact List.reverse_eq_iff.mp heq

theorem ink_trim (cs : List Char) : ink (trim cs) = ink cs := by
  obtain ⟨bs, hbs, hleft⟩ := exists_trimLeft cs
  obtain ⟨bs', hbs', hright⟩ := exists_trimRight (trimLeft cs)
  have hskip : ∀ {bs : List Char}, (∀ b ∈ bs, isBlank b = true) → ink (bs ++ trimLeft cs) =
      ink (trimLeft cs) := by
    intro bs hbs
    induction bs with
    | nil => rfl
    | cons b bs ih =>
      rw [List.forall_mem_cons] at hbs
      rw [List.cons_append, ink_blank hbs.1, ih hbs.2]
  calc ink (trim cs) = ink (trim cs ++ bs') := (ink_append_blank hbs').symm
    _ = ink (trimLeft cs) := congrArg ink hright.symm
    _ = ink (bs ++ trimLeft cs) := (hskip hbs).symm
    _ = ink cs := congrArg ink hleft.symm

theorem trim_subset : trim cs ⊆ cs := by
  intro c hc
  obtain ⟨bs, _, hleft⟩ := exists_trimLeft cs
  obtain ⟨bs', _, hright⟩ := exists_trimRight (trimLeft cs)
  rw [hleft, hright]
  exact List.mem_append_right _ (List.mem_append_left _ hc)

theorem trim_ne_nil {d : Char} (hd : d ∈ cs) (hvisible : isVisible d = true) : trim cs ≠ [] := by
  intro hnil
  obtain ⟨bs, hbs, hleft⟩ := exists_trimLeft cs
  obtain ⟨bs', hbs', hright⟩ := exists_trimRight (trimLeft cs)
  rw [hleft, hright, show trimRight (trimLeft cs) = [] from hnil, List.nil_append] at hd
  have hblank : isBlank d = true := (List.mem_append.mp hd).elim (hbs d) (hbs' d)
  simp [isVisible, hblank] at hvisible

theorem filter_trimRight (cs : List Char) :
    (trimRight cs).filter isVisible = cs.filter isVisible := by
  obtain ⟨bs, hbs, heq⟩ := exists_trimRight cs
  have hnone : bs.filter isVisible = [] := by
    refine List.filter_eq_nil_iff.mpr fun b hb => ?_
    simp [isVisible, hbs b hb]
  conv_rhs => rw [heq, List.filter_append, hnone, List.append_nil]

theorem getLast?_trimRight (cs : List Char) :
    (trimRight cs).getLast? = (cs.filter isVisible).getLast? := by
  have hblank : (fun d => !isVisible d) = isBlank := by
    funext d
    simp [isVisible]
  rw [trimRight, List.getLast?_reverse, List.getLast?_eq_head?_reverse, ← List.filter_reverse,
    List.head?_filter, List.find?_eq_head?_dropWhile_not, hblank]

end Text

namespace Console

variable {c : Console} {line : String}

def balance (cs : List Char) : Int := (cs.map bracket).foldr (· + ·) 0

theorem bracket_eq (d : Char) : bracket d =
    (if Text.isOpening d then 1 else 0) - (if Text.isClosing d then 1 else 0) := by
  unfold bracket
  split <;> simp_all [Text.isOpening, Text.isClosing]

theorem balance_eq (cs : List Char) :
    balance cs = cs.countP Text.isOpening - cs.countP Text.isClosing := by
  induction cs with
  | nil => rfl
  | cons d cs ih =>
    have hcons : balance (d :: cs) = bracket d + balance cs := rfl
    rw [hcons, ih, bracket_eq, List.countP_cons, List.countP_cons]
    push_cast
    split <;> split <;> omega

theorem balance_append (cs ds : List Char) : balance (cs ++ ds) = balance cs + balance ds := by
  simp only [balance_eq, List.countP_append]
  push_cast
  omega

theorem bracket_of_invisible {d : Char} (h : isVisible d = false) : bracket d = 0 := by
  have hnot : Text.isBracket d = false :=
    Bool.eq_false_iff.mpr fun hd => by simp [Text.isVisible_of_isBracket hd] at h
  rw [Text.isBracket, Bool.or_eq_false_iff] at hnot
  simp [bracket_eq, hnot.1, hnot.2]

/-! ### Counting -/

def Fits (n : Int) : Prop := -2147483648 ≤ n ∧ n ≤ 2147483647

theorem fits_toInt (depth : Int32) : Fits depth.toInt := by
  have hle := depth.le_toInt
  have hlt := depth.toInt_lt
  exact ⟨by omega, by omega⟩

theorem toInt_ofInt {n : Int} (h : Fits n) : (Int32.ofInt n).toInt = n :=
  Int32.toInt_ofInt_of_le (by have := h.1; omega) (by have := h.2; omega)

theorem countBracket_fits {depth : Int32} {d : Char} (h : Fits (depth.toInt + bracket d)) :
    countBracket depth d = .ok (Int32.ofInt (depth.toInt + bracket d)) := by
  obtain ⟨hlow, hhigh⟩ := h
  rw [countBracket, if_neg (by omega), if_neg (by omega)]

theorem countBracket_breach {depth : Int32} {d : Char} (h : ¬ Fits (depth.toInt + bracket d)) :
    ∃ b, countBracket depth d = .error b := by
  by_cases hhigh : 2147483647 < depth.toInt + bracket d
  · exact ⟨_, by rw [countBracket, if_pos hhigh]⟩
  · have hlow : depth.toInt + bracket d < -2147483648 := by
      unfold Fits at h
      omega
    exact ⟨_, by rw [countBracket, if_neg hhigh, if_pos hlow]⟩

def CountableFrom (n : Int) (cs : List Char) : Prop := ∀ ds, ds <+: cs → Fits (n + balance ds)

theorem countableFrom_cons {n : Int} {d : Char} {cs : List Char} (hn : Fits n) :
    CountableFrom n (d :: cs) ↔ Fits (n + bracket d) ∧ CountableFrom (n + bracket d) cs := by
  have hstep : ∀ ds, n + balance (d :: ds) = n + bracket d + balance ds :=
    fun ds => (Int.add_assoc ..).symm
  constructor
  · intro h
    refine ⟨?_, fun ds hds => ?_⟩
    · simpa [hstep, balance] using h [d] (by simp)
    · exact hstep ds ▸ h (d :: ds) (List.cons_prefix_cons.mpr ⟨rfl, hds⟩)
  · rintro ⟨_, h⟩ ds hds
    rcases List.prefix_cons_iff.mp hds with rfl | ⟨es, rfl, hes⟩
    · simpa [balance] using hn
    · exact (hstep es).symm ▸ h es hes

theorem countableFrom_append {n : Int} {cs ds : List Char} :
    CountableFrom n (cs ++ ds) ↔ CountableFrom n cs ∧ CountableFrom (n + balance cs) ds := by
  constructor
  · refine fun h => ⟨fun es hes => h es (hes.trans (List.prefix_append ..)), fun es hes => ?_⟩
    rw [Int.add_assoc, ← balance_append]
    exact h (cs ++ es) ((List.prefix_append_right_inj cs).mpr hes)
  · rintro ⟨hcs, hds⟩ es hes
    rcases List.prefix_or_prefix_of_prefix hes (List.prefix_append cs ds) with h | ⟨fs, rfl⟩
    · exact hcs es h
    · rw [balance_append, ← Int.add_assoc]
      exact hds fs ((List.prefix_append_right_inj cs).mp hes)

theorem countableFrom_zero {cs : List Char} (h : cs.countP Text.isBracket < 2147483648) :
    CountableFrom 0 cs := by
  intro ds hds
  have hall := hds.sublist.countP_le (p := Text.isBracket)
  have hopening : ds.countP Text.isOpening ≤ ds.countP Text.isBracket :=
    List.countP_mono_left fun d _ hd => by simp [Text.isBracket, hd]
  have hclosing : ds.countP Text.isClosing ≤ ds.countP Text.isBracket :=
    List.countP_mono_left fun d _ hd => by simp [Text.isBracket, hd]
  rw [balance_eq, Fits]
  omega

theorem count_eq {depth : Int32} {cs : List Char} (h : CountableFrom depth.toInt cs) :
    cs.foldlM countBracket depth = .ok (Int32.ofInt (depth.toInt + balance cs)) := by
  induction cs generalizing depth with
  | nil => simp [balance]; rfl
  | cons d cs ih =>
    obtain ⟨hfits, hrest⟩ := (countableFrom_cons (fits_toInt depth)).mp h
    have hdepth := toInt_ofInt hfits
    rw [List.foldlM_cons, countBracket_fits hfits]
    refine (ih (hdepth.symm ▸ hrest)).trans ?_
    rw [hdepth, Int.add_assoc]
    rfl

theorem count_breach {depth : Int32} {cs : List Char} (h : ¬ CountableFrom depth.toInt cs) :
    ∃ b, cs.foldlM countBracket depth = .error b := by
  induction cs generalizing depth with
  | nil =>
    refine absurd (fun ds hds => ?_) h
    rw [List.prefix_nil.mp hds]
    simpa [balance] using fits_toInt depth
  | cons d cs ih =>
    rw [countableFrom_cons (fits_toInt depth), not_and] at h
    rw [List.foldlM_cons]
    by_cases hfits : Fits (depth.toInt + bracket d)
    · obtain ⟨b, hb⟩ := ih ((toInt_ofInt hfits).symm ▸ h hfits)
      exact ⟨b, by rw [countBracket_fits hfits]; exact hb⟩
    · obtain ⟨b, hb⟩ := countBracket_breach hfits
      exact ⟨b, by rw [hb]; rfl⟩

theorem count_filter (cs : List Char) (depth : Int32) :
    (cs.filter isVisible).foldlM countBracket depth = cs.foldlM countBracket depth := by
  induction cs generalizing depth with
  | nil => rfl
  | cons d cs ih =>
    cases hd : isVisible d with
    | true =>
      rw [List.filter_cons_of_pos hd, List.foldlM_cons, List.foldlM_cons]
      exact congrArg _ (funext ih)
    | false =>
      have hsame : countBracket depth d = .ok depth := by
        rw [countBracket_fits] <;> rw [bracket_of_invisible hd, Int.add_zero]
        · rw [Int32.ofInt_toInt]
        · exact fits_toInt depth
      rw [List.filter_cons_of_neg (by simp [hd]), ih, List.foldlM_cons, hsame]
      rfl

/-- A text is complete when no bracket is left open and its last visible character is a
semicolon. -/
def isComplete (text : List Char) : Bool :=
  balance (ink text) ≤ 0 && (ink text).getLast? = some ';'

/-! ### One line -/

structure IsLine (line : String) : Prop where
  visible : ∃ d ∈ line.toList, isVisible d = true
  single : '\n' ∉ line.toList

instance (line : String) : Decidable (IsLine line) :=
  decidable_of_iff (line.toList.any isVisible = true ∧ '\n' ∉ line.toList)
    ⟨fun h => ⟨List.any_eq_true.mp h.1, h.2⟩, fun h => ⟨List.any_eq_true.mpr h.visible, h.single⟩⟩

def startsCommand (line : String) : Bool := (Text.trim line.toList).head? = some ':'

theorem ink_withoutComment {cs : List Char} (h : '\n' ∉ cs) :
    ink cs = (withoutComment cs).filter isVisible := by
  fun_induction withoutComment cs with
  | case1 => rfl
  | case2 cs =>
    have hcs : '\n' ∉ cs := fun hm => h (by simp [hm])
    simpa using Text.ink_comment hcs (.inl rfl)
  | case3 d cs hslash ih =>
    rw [List.mem_cons, not_or] at h
    have hopen : ¬ (d = '/' ∧ cs.head? = some '/') := by
      rintro ⟨hd, hhead⟩
      obtain ⟨ds, hds⟩ := List.head?_eq_some_iff.mp hhead
      exact hslash ds hd hds
    rw [Text.ink_cons hopen, ih h.2, ← List.filter_append]
    rfl

theorem code_ink {cs : List Char} (h : '\n' ∉ cs) (depth : Int32) :
    (Text.trimRight (withoutComment (Text.trim cs))).foldlM countBracket depth =
        (ink cs).foldlM countBracket depth ∧
      (Text.trimRight (withoutComment (Text.trim cs))).getLast? = (ink cs).getLast? := by
  have hink : ink cs = (withoutComment (Text.trim cs)).filter isVisible := by
    rw [← Text.ink_trim, ink_withoutComment fun hm => h (Text.trim_subset hm)]
  rw [hink, Text.getLast?_trimRight]
  refine ⟨?_, rfl⟩
  rw [← Text.filter_trimRight, count_filter]

def addLine (buffer line : String) : String :=
  if buffer.isEmpty then line else buffer ++ "\n" ++ line

theorem ink_addLine (buffer line : String) :
    ink (addLine buffer line).toList = ink buffer.toList ++ ink line.toList := by
  unfold addLine
  split
  case isTrue h =>
    obtain rfl : buffer = "" := by simpa using h
    rfl
  case isFalse => simpa using Text.ink_line buffer.toList line.toList

/-- A text whose brackets can be counted: at least, one with fewer than `2 ^ 31` of them. -/
def Countable (text : List Char) : Prop := CountableFrom 0 (ink text)

def holding (c : Console) (text : String) : Console :=
  { c with buffer := text, depth := Int32.ofInt (balance (ink text.toList)) }

theorem toInt_holding {text : String} (h : Countable text.toList) :
    (c.holding text).depth.toInt = balance (ink text.toList) :=
  toInt_ofInt (by simpa using h _ (List.prefix_refl _))

theorem countable_addLine {text : String} (h : Countable text.toList) :
    Countable (addLine text line).toList ↔
      CountableFrom (c.holding text).depth.toInt (ink line.toList) := by
  rw [toInt_holding h, Countable, ink_addLine, countableFrom_append, Int.zero_add]
  exact and_iff_right h

/-- One line more. Nothing but the text that is now there matters. -/
theorem enter_holding {text : String} (hopen : isComplete text.toList = false)
    (hcountable : Countable text.toList) (hline : IsLine line)
    (hcommand : text = "" → startsCommand line = false) :
    (Countable (addLine text line).toList → (c.holding text).enter line =
      if isComplete (addLine text line).toList then (c.holding "", .input (addLine text line))
      else (c.holding (addLine text line), .incomplete)) ∧
    (¬ Countable (addLine text line).toList → ∃ b, ((c.holding text).enter line).2 = .breach b) := by
  obtain ⟨hcode, hlast⟩ := code_ink hline.single (c.holding text).depth
  obtain ⟨d, hd, hvisible⟩ := hline.visible
  have htrim : (Text.trim line.toList).isEmpty = false := by
    simpa using Text.trim_ne_nil hd hvisible
  have hplain : (decide ((Text.trim line.toList).head? = some ':') &&
      (c.holding text).buffer.isEmpty) = false := by
    change (_ && text.isEmpty) = false
    cases hempty : text.isEmpty with
    | false => simp
    | true =>
      have hstart := hcommand (by simpa using hempty)
      simpa [startsCommand] using hstart
  simp only [enter, htrim, hplain, hcode, hlast, Bool.false_eq_true, if_false]
  rw [countable_addLine (c := c) hcountable]
  refine ⟨fun h => ?_, fun h => ?_⟩
  · have hdepth : (c.holding text).depth.toInt + balance (ink line.toList) =
        balance (ink (addLine text line).toList) := by
      rw [toInt_holding hcountable, ink_addLine, balance_append]
    have hcomplete : isComplete (addLine text line).toList =
        (decide (balance (ink (addLine text line).toList) ≤ 0) &&
          decide ((ink line.toList).getLast? = some ';')) := by
      by_cases hnil : ink line.toList = []
      · rw [hnil]
        simpa [isComplete, ink_addLine, hnil] using hopen
      · obtain ⟨ds, e, he⟩ := (List.eq_nil_or_concat _).resolve_left hnil
        simp [isComplete, ink_addLine, he]
    have hle : Int32.ofInt (balance (ink (addLine text line).toList)) ≤ 0 ↔
        balance (ink (addLine text line).toList) ≤ 0 := by
      rw [Int32.le_iff_toInt_le, toInt_ofInt (hdepth ▸ h _ (List.prefix_refl _))]
      rfl
    rw [hcomplete, count_eq h, hdepth]
    simp only [hle]
    rfl
  · obtain ⟨b, hb⟩ := count_breach h
    exact ⟨b, by rw [hb]⟩

/-! ### Several lines -/

def enterAll : Console → List String → Console × List Entry
  | c, [] => (c, [])
  | c, line :: rest =>
    let next := c.enter line
    let after := next.1.enterAll rest
    (after.1, next.2 :: after.2)

theorem addLine_ne_empty (hline : IsLine line) (buffer : String) : addLine buffer line ≠ "" := by
  obtain ⟨d, hd, _⟩ := hline.visible
  have hmem : d ∈ (addLine buffer line).toList := by
    unfold addLine
    split
    case isTrue => exact hd
    case isFalse => simp [hd]
  rintro heq
  rw [heq] at hmem
  cases hmem

theorem enterAll_holding {text : String} {lines : List String}
    (hopen : isComplete text.toList = false) (hcountable : Countable text.toList)
    (hlines : ∀ line ∈ lines, IsLine line)
    (hcommand : text = "" → ∀ line ∈ lines.head?, startsCommand line = false)
    (hwait : ∀ e ∈ ((c.holding text).enterAll lines).2, e = .incomplete) :
    ((c.holding text).enterAll lines).1 = c.holding (lines.foldl addLine text) ∧
      isComplete (lines.foldl addLine text).toList = false ∧
      Countable (lines.foldl addLine text).toList := by
  induction lines generalizing text with
  | nil => exact ⟨rfl, hopen, hcountable⟩
  | cons line rest ih =>
    rw [List.forall_mem_cons] at hlines
    simp only [enterAll, List.forall_mem_cons] at hwait
    obtain ⟨hfirst, hbreach⟩ := enter_holding (c := c) hopen hcountable hlines.1
      fun htext => hcommand htext line rfl
    by_cases hmore : Countable (addLine text line).toList
    · have hfirst := hfirst hmore
      rw [hfirst] at hwait
      simp only [enterAll, hfirst]
      split at hwait
      case isTrue => cases hwait.1
      case isFalse hnext =>
        rw [if_neg hnext]
        refine ih (by simpa using hnext) hmore hlines.2 (fun htext => ?_) hwait.2
        exact absurd htext (addLine_ne_empty hlines.1 text)
    · obtain ⟨b, hb⟩ := hbreach hmore
      cases hb.symm.trans hwait.1

theorem intercalate_append_cons (a b s : String) (rest : List String) :
    s.intercalate ((a ++ b) :: rest) = a ++ s.intercalate (b :: rest) := by
  cases rest with
  | nil => simp
  | cons d rest => simp [String.intercalate_cons_cons, String.append_assoc]

theorem foldl_addLine {first : String} (hfirst : first ≠ "") (rest : List String) :
    rest.foldl addLine first = "\n".intercalate (first :: rest) := by
  induction rest generalizing first with
  | nil => simp
  | cons line rest ih =>
    have hline : addLine first line = first ++ "\n" ++ line := if_neg (by simpa using hfirst)
    rw [List.foldl_cons, hline, ih (by simp [hfirst]), String.intercalate_cons_cons,
      intercalate_append_cons]

def joined (lines : List String) : String := "\n".intercalate lines

theorem foldl_addLine_eq_joined {lines : List String} (hlines : ∀ line ∈ lines, IsLine line) :
    lines.foldl addLine "" = joined lines := by
  cases lines with
  | nil => rfl
  | cons first rest =>
    have hfirst : addLine "" first = first := rfl
    have hne := addLine_ne_empty (hlines first List.mem_cons_self) ""
    rw [List.foldl_cons, hfirst, foldl_addLine (hfirst ▸ hne), joined]

/-! ### Tokens -/

/-- Tokens that end with a semicolon and open no more brackets than they close, where those in
quoted texts are counted with the rest. -/
def Concluded (ts : List Token) : Prop :=
  ts.getLast? = some (.sign .semicolon) ∧
    ts.countP Token.isOpening + (ts.flatMap Token.quoted).countP Text.isOpening ≤
      ts.countP Token.isClosing + (ts.flatMap Token.quoted).countP Text.isClosing

instance (ts : List Token) : Decidable (Concluded ts) := inferInstanceAs (Decidable (_ ∧ _))

theorem isComplete_iff {text : List Char} {us : List (Spanned Token)}
    (h : Lexer.tokens text = .ok us) (hslashes : ∀ u ∈ us, ¬ ['/', '/'] <:+: u.node.quoted) :
    isComplete text = true ↔ Concluded (nodes us) := by
  have hopening := Lexer.countP_ink h hslashes (p := Text.isOpening)
    (fun d hd => (Bool.or_eq_false_iff.mp hd).1) Token.countP_signs_opening
  have hclosing := Lexer.countP_ink h hslashes (p := Text.isClosing)
    (fun d hd => (Bool.or_eq_false_iff.mp hd).2) Token.countP_signs_closing
  have hlast := Lexer.getLast?_ink h hslashes
  simp only [isComplete, Bool.and_eq_true, decide_eq_true_eq, balance_eq, hlast, hopening,
    hclosing, Concluded]
  rw [and_comm]
  refine and_congr_right fun _ => ?_
  omega

/-- The answer to the last of several lines that were waiting. It depends on the visible characters
of the joined lines, unless these have more brackets than can be counted. If they can be read as
tokens, and no quoted text has two slashes in a row, the lines are complete exactly if the last token
is a semicolon and the brackets balance, those in quoted texts included. -/
theorem enter_decides {c : Console} {lines : List String} {last : String} (hbuffer : c.buffer = "")
    (hdepth : c.depth = 0) (hlines : ∀ line ∈ lines ++ [last], IsLine line)
    (hcommand : ∀ line ∈ (lines ++ [last]).head?, startsCommand line = false)
    (hwait : ∀ e ∈ (c.enterAll lines).2, e = .incomplete) :
    (Countable (joined (lines ++ [last])).toList → (c.enterAll lines).1.enter last =
      if isComplete (joined (lines ++ [last])).toList then (c, .input (joined (lines ++ [last])))
      else (c.holding (joined (lines ++ [last])), .incomplete)) ∧
    (¬ Countable (joined (lines ++ [last])).toList →
      ∃ b, ((c.enterAll lines).1.enter last).2 = .breach b) ∧
    ((ink (joined (lines ++ [last])).toList).countP Text.isBracket < 2147483648 →
      Countable (joined (lines ++ [last])).toList) ∧
    ∀ us, Lexer.tokens (joined (lines ++ [last])).toList = .ok us →
      (∀ u ∈ us, ¬ ['/', '/'] <:+: u.node.quoted) →
      (isComplete (joined (lines ++ [last])).toList = true ↔ Concluded (nodes us)) := by
  have hc : c.holding "" = c := by
    cases c
    cases hbuffer
    cases hdepth
    rfl
  have hempty : isComplete "".toList = false := rfl
  obtain ⟨hrun, hopen, hcountable⟩ := enterAll_holding (c := c) hempty
    (countableFrom_zero (by decide))
    (fun line hline => hlines line (List.mem_append_left _ hline))
    (fun _ line hline => hcommand line (by simp [List.head?_append, Option.mem_def.mp hline]))
    (hc.symm ▸ hwait)
  have hlast : lines.foldl addLine "" = "" → startsCommand last = false := by
    obtain rfl | ⟨init, line, rfl⟩ := lines.eq_nil_or_concat
    · exact fun _ => hcommand last rfl
    · intro hnone
      rw [List.concat_eq_append, List.foldl_append] at hnone
      exact absurd hnone (addLine_ne_empty (hlines line (by simp)) _)
  have hjoined := foldl_addLine_eq_joined hlines
  rw [List.foldl_append, List.foldl_cons, List.foldl_nil] at hjoined
  obtain ⟨hanswer, hbreach⟩ := enter_holding (c := c) hopen hcountable (hlines last (by simp)) hlast
  rw [hc] at hrun hanswer
  rw [hjoined] at hanswer hbreach
  rw [hrun]
  exact ⟨hanswer, hbreach, countableFrom_zero, fun us => isComplete_iff⟩

def rowLines : List String := ["add R(1,  // the key", "  // next: (", "  \"x)\""]

theorem enter_decides_row :
    (∀ line ∈ rowLines ++ [";"], IsLine line) ∧
    ((start .default).enterAll rowLines).2 = [.incomplete, .incomplete, .incomplete] ∧
    (∃ us, Lexer.tokens (joined (rowLines ++ [";"])).toList = .ok us ∧ Concluded (nodes us) ∧
      (nodes us).countP Token.isClosing < (nodes us).countP Token.isOpening) ∧
    ((start .default).enterAll rowLines).1.enter ";" =
      (start .default, .input "add R(1,  // the key\n  // next: (\n  \"x)\"\n;") := by
  have hlines : ∀ line ∈ rowLines ++ [";"], IsLine line := by decide +kernel
  have hcommand : ∀ line ∈ (rowLines ++ [";"]).head?, startsCommand line = false := by
    decide +kernel
  have hwait : ((start .default).enterAll rowLines).2 = [.incomplete, .incomplete, .incomplete] := by
    decide +kernel
  obtain ⟨henter, _, hfew, htokens⟩ := enter_decides (c := start .default) rfl rfl hlines hcommand
    (by simp [hwait])
  have hjoined : joined (rowLines ++ [";"]) = "add R(1,  // the key\n  // next: (\n  \"x)\"\n;" := by
    decide +kernel
  obtain ⟨us, hus, hslashes, hconcluded, hless⟩ :
      ∃ us, Lexer.tokens (joined (rowLines ++ [";"])).toList = .ok us ∧
        (∀ u ∈ us, ¬ ['/', '/'] <:+: u.node.quoted) ∧ Concluded (nodes us) ∧
        (nodes us).countP Token.isClosing < (nodes us).countP Token.isOpening := by
    decide +kernel
  refine ⟨hlines, hwait, ⟨us, hus, hconcluded, hless⟩, ?_⟩
  rw [henter (hfew (by decide +kernel)), if_pos ((htokens us hus hslashes).mpr hconcluded),
    hjoined]

/-- A bracket or two slashes in quotes keep a line waiting whose tokens are complete: a semicolon
ends them, and each bracket among them is closed. -/
theorem enter_misled :
    (∃ us, Lexer.tokens "add R(\"(\");".toList = .ok us ∧
      (nodes us).getLast? = some (.sign .semicolon) ∧
      (nodes us).countP Token.isOpening = (nodes us).countP Token.isClosing) ∧
    (start .default).enter "add R(\"(\");" =
      ((start .default).holding "add R(\"(\");", .incomplete) ∧
    (∃ us, Lexer.tokens "add R(\"//\");".toList = .ok us ∧
      (nodes us).getLast? = some (.sign .semicolon) ∧
      (nodes us).countP Token.isOpening = (nodes us).countP Token.isClosing) ∧
    (start .default).enter "add R(\"//\");" =
      ((start .default).holding "add R(\"//\");", .incomplete) :=
  ⟨⟨_, rfl, rfl, rfl⟩, rfl, ⟨_, rfl, rfl, rfl⟩, rfl⟩

end Console

end ViewUpkeep
