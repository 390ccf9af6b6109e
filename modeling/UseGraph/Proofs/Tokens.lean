import Mathlib.Data.List.Chain
import UseGraph.Proofs.Escapes
import UseGraph.Proofs.Numerals

/-!
# Texts as tokens

A text is a row of tokens, each in one of its spellings, with any blanks
between them. The scanner finds the tokens of every such text in which no two
words stand side by side, and finds none in any other text.
-/

set_option autoImplicit false

namespace UseGraph.Json

variable {t : Token} {ts us : List Token} {s r w : List Char} {σ : Scan}

inductive Token.Spelled : Token → List Char → Prop where
  | openItems : Spelled .openItems ['[']
  | closeItems : Spelled .closeItems [']']
  | openMembers : Spelled .openMembers ['{']
  | closeMembers : Spelled .closeMembers ['}']
  | colon : Spelled .colon [':']
  | comma : Spelled .comma [',']
  | null : Spelled .null ['n', 'u', 'l', 'l']
  | yes : Spelled (.bool true) ['t', 'r', 'u', 'e']
  | no : Spelled (.bool false) ['f', 'a', 'l', 's', 'e']
  | num {n : Decimal.Numeral} {w : List Char} (h : n.Spelled w) : Spelled (.num n) w
  | str {text : Option String} {w : List Char} (h : StringSpelled text w) : Spelled (.str text) w

inductive Spaced : List Token → List Char → Prop where
  | nil : Spaced [] []
  | blank {ts : List Token} {s : List Char} (c : Char) (hc : isBlank c = true)
      (h : Spaced ts s) : Spaced ts (c :: s)
  | token {ts : List Token} {s : List Char} {t : Token} {w : List Char} (ht : t.Spelled w)
      (h : Spaced ts s) : Spaced (t :: ts) (w ++ s)

theorem Spaced.append (h : Spaced ts s) (hr : Spaced us r) : Spaced (ts ++ us) (s ++ r) := by
  induction h with
  | nil => exact hr
  | blank c hc _ ih => exact .blank c hc ih
  | token ht _ ih =>
    rw [List.append_assoc]
    exact .token ht ih

theorem Spaced.append_blank {c : Char} (h : Spaced ts s) (hc : isBlank c = true) :
    Spaced ts (s ++ [c]) := by
  have happ := h.append (.blank c hc .nil)
  rwa [List.append_nil] at happ

theorem Spaced.append_token (h : Spaced ts s) (ht : t.Spelled w) :
    Spaced (ts ++ [t]) (s ++ w) := by
  have happ := h.append (.token ht .nil)
  rwa [List.append_nil] at happ

namespace Token

def isWord : Token → Bool
  | .null => true
  | .bool _ => true
  | .num _ => true
  | _ => false

theorem Spelled.word_ne_nil (h : t.Spelled w) (ht : t.isWord = true) : w ≠ [] := by
  cases h with
  | num h =>
    obtain ⟨c, r, rfl, -⟩ := h.head
    exact List.cons_ne_nil c r
  | str h => cases ht
  | _ => simp

theorem endsWord_of_figure {c : Char} (h : Decimal.Numeral.Figure c) :
    Scan.endsWord c = false := by
  rcases h with ⟨d, rfl⟩ | h
  · revert d
    decide
  · have hall : ∀ c ∈ ['-', '+', '.', 'e', 'E'], Scan.endsWord c = false := by
      simp only [List.forall_mem_cons]
      exact ⟨rfl, rfl, rfl, rfl, rfl, List.forall_mem_nil _⟩
    exact hall c h

theorem Spelled.word_goes_on (h : t.Spelled w) (ht : t.isWord = true) :
    ∀ c ∈ w, Scan.endsWord c = false := by
  cases h with
  | num h => exact fun c hc => endsWord_of_figure (h.figures c hc)
  | null =>
    simp only [List.forall_mem_cons]
    exact ⟨rfl, rfl, rfl, rfl, List.forall_mem_nil _⟩
  | yes =>
    simp only [List.forall_mem_cons]
    exact ⟨rfl, rfl, rfl, rfl, List.forall_mem_nil _⟩
  | no =>
    simp only [List.forall_mem_cons]
    exact ⟨rfl, rfl, rfl, rfl, rfl, List.forall_mem_nil _⟩
  | _ => cases ht

end Token

open Token

theorem digit_ne_letter (d : Decimal.Digit) :
    d.toChar ≠ 'n' ∧ d.toChar ≠ 't' ∧ d.toChar ≠ 'f' := by
  revert d
  decide

theorem word?_eq_some_iff : word? w = some t ↔ t.isWord = true ∧ t.Spelled w := by
  constructor
  · intro h
    unfold word? at h
    split at h
    · cases h
      subst w
      exact ⟨rfl, .null⟩
    · split at h
      · cases h
        subst w
        exact ⟨rfl, .yes⟩
      · split at h
        · cases h
          subst w
          exact ⟨rfl, .no⟩
        · obtain ⟨n, hn, rfl⟩ := Option.map_eq_some_iff.1 h
          exact ⟨rfl, .num (Decimal.Numeral.read?_eq_some_iff.1 hn)⟩
  · rintro ⟨ht, h⟩
    cases h with
    | null => rfl
    | yes => rfl
    | no => rfl
    | num h =>
      obtain ⟨c, r, rfl, hc⟩ := h.head
      have hletter : c ≠ 'n' ∧ c ≠ 't' ∧ c ≠ 'f' := by
        rcases hc with rfl | ⟨d, rfl⟩
        · decide
        · exact digit_ne_letter d
      unfold word?
      rw [if_neg (fun he => hletter.1 (List.cons.inj he).1),
        if_neg (fun he => hletter.2.1 (List.cons.inj he).1),
        if_neg (fun he => hletter.2.2 (List.cons.inj he).1),
        Decimal.Numeral.read?_eq_some_iff.2 h]
      rfl
    | _ => cases ht

theorem punctuation?_spelled {c : Char} (h : punctuation? c = some t) : t.Spelled [c] := by
  unfold punctuation? at h
  split at h
  · cases h; exact .openItems
  · cases h; exact .closeItems
  · cases h; exact .openMembers
  · cases h; exact .closeMembers
  · cases h; exact .colon
  · cases h; exact .comma
  · cases h

namespace Scan

inductive Settled : Scan → List Token → Prop where
  | between (ts : List Token) : Settled ⟨.between, ts⟩ ts
  | word {seen : List Char} {t : Token} (ts : List Token) (h : word? seen.reverse = some t) :
      Settled ⟨.word seen, ts⟩ (t :: ts)

theorem Settled.step {c : Char} (h : Settled σ ts) (hc : endsWord c = true) :
    σ.step c = some (stepBetween ts c) := by
  cases h with
  | between => rfl
  | word ts h => simp only [Scan.step, hc, if_true, h, Option.map_some]

theorem Settled.finish (h : Settled σ ts) : σ.finish? = some ts.reverse := by
  cases h with
  | between => rfl
  | word ts h => simp only [finish?, h, Option.map_some]

theorem run_word {seen : List Char} (ts : List Token) (hw : ∀ c ∈ w, endsWord c = false) :
    w.foldlM step ⟨.word seen, ts⟩ = some ⟨.word (w.reverse ++ seen), ts⟩ := by
  induction w generalizing seen with
  | nil => rfl
  | cons c w ih =>
    have hc := hw c (by simp)
    have hstep : step ⟨.word seen, ts⟩ c = some ⟨.word (c :: seen), ts⟩ := by simp [step, hc]
    rw [List.foldlM_cons, hstep]
    simp only [Option.bind_eq_bind, Option.bind_some]
    rw [ih (fun x hx => hw x (List.mem_cons_of_mem _ hx)), List.reverse_cons, List.append_assoc]
    rfl

theorem run_hex {ds : List Nat} {cs : List Char} (h : List.Forall₂ HexSpelled ds cs)
    (seen : List Piece) (ts : List Token) (code : Nat) (hne : ds ≠ []) :
    cs.foldlM step ⟨.hex seen ds.length code, ts⟩ =
      some ⟨.string (.unit (hexValue code ds) :: seen), ts⟩ := by
  induction h generalizing code with
  | nil => exact absurd rfl hne
  | cons hd h ih =>
    rename_i d c ds cs
    rw [List.foldlM_cons]
    cases ds with
    | nil =>
      cases h
      simp [step, hexDigit?_eq_some_iff.2 hd, hexValue]
    | cons e ds =>
      have hstep : step ⟨.hex seen (d :: e :: ds).length code, ts⟩ c =
          some ⟨.hex seen (e :: ds).length (16 * code + d), ts⟩ := by
        simp [step, hexDigit?_eq_some_iff.2 hd]
      rw [hstep]
      exact ih (16 * code + d) (List.cons_ne_nil e ds)

theorem run_piece {p : Piece} (h : p.Spelled w) (seen : List Piece) (ts : List Token) :
    w.foldlM step ⟨.string seen, ts⟩ = some ⟨.string (p :: seen), ts⟩ := by
  cases h with
  | plain c hquote hback hcontrol =>
    have hc : ¬ c.toNat < 0x20 := by omega
    simp [step, hquote, hback, hc]
  | short e c h =>
    have he : e ≠ 'u' := by
      rintro rfl
      exact absurd (escape?_eq_some_iff.2 h) (by simp [escape?])
    simp [step, he, escape?_eq_some_iff.2 h]
  | unit ds cs hlength hcs =>
    have hrun := run_hex hcs seen ts 0 (by rintro rfl; cases hlength)
    rw [hlength] at hrun
    exact hrun

theorem run_body {ps : List Piece} {body : List Char} (h : BodySpelled ps body)
    (seen : List Piece) (ts : List Token) :
    body.foldlM step ⟨.string seen, ts⟩ = some ⟨.string (ps.reverse ++ seen), ts⟩ := by
  obtain ⟨ws, hws, rfl⟩ := h
  induction hws generalizing seen with
  | nil => rfl
  | cons hp _ ih =>
    rw [List.flatten_cons, List.foldlM_append, run_piece hp]
    simp only [Option.bind_eq_bind, Option.bind_some]
    rw [ih, List.reverse_cons, List.append_assoc]
    rfl

theorem stepBetween_word {c : Char} (hc : endsWord c = false) (ts : List Token) :
    stepBetween ts c = ⟨.word [c], ts⟩ := by
  simp only [endsWord, Bool.or_eq_false_iff, decide_eq_false_iff_not] at hc
  unfold stepBetween
  rw [if_neg (by simp [hc.1.1]), if_neg hc.1.2]
  split
  · rename_i t ht
    rw [ht] at hc
    cases hc.2
  · rfl

/-- A token is found behind what was found before, unless two words meet. -/
theorem Settled.run_token (h : Settled σ ts) (ht : t.Spelled w)
    (hsep : ∀ u ∈ ts.head?, ¬ (u.isWord = true ∧ t.isWord = true)) :
    ∃ σ', w.foldlM Scan.step σ = some σ' ∧ Settled σ' (t :: ts) := by
  by_cases hword : t.isWord = true
  · have hσ : σ = ⟨.between, ts⟩ := by
      cases h with
      | between => rfl
      | word us hu => exact absurd ⟨(word?_eq_some_iff.1 hu).1, hword⟩ (hsep _ rfl)
    obtain ⟨c, r, rfl⟩ := List.exists_cons_of_ne_nil (ht.word_ne_nil hword)
    have hgo := ht.word_goes_on hword
    refine ⟨⟨.word (r.reverse ++ [c]), ts⟩, ?_, .word ts ?_⟩
    · rw [hσ, List.foldlM_cons, Scan.step, stepBetween_word (hgo c (by simp))]
      exact run_word ts fun x hx => hgo x (List.mem_cons_of_mem _ hx)
    · simp only [List.reverse_append, List.reverse_reverse, List.reverse_singleton]
      exact word?_eq_some_iff.2 ⟨hword, ht⟩
  · cases ht with
    | str hs =>
      obtain ⟨ps, body, hbody, rfl, rfl⟩ := hs.exists_pieces
      refine ⟨⟨.between, .str ((join ps).map String.ofList) :: ts⟩, ?_, .between _⟩
      have hopen : σ.step '"' = some ⟨.string [], ts⟩ := h.step rfl
      rw [List.cons_append, List.foldlM_cons, hopen]
      simp only [Option.bind_eq_bind, Option.bind_some]
      rw [List.foldlM_append, run_body hbody]
      simp [Scan.step]
    | null => exact absurd rfl hword
    | yes => exact absurd rfl hword
    | no => exact absurd rfl hword
    | num _ => exact absurd rfl hword
    | _ =>
      refine ⟨⟨.between, _ :: ts⟩, ?_, .between _⟩
      rw [List.foldlM_cons, h.step rfl]
      rfl

def Apart (ts : List Token) : Prop :=
  ts.IsChain fun t u => ¬ (t.isWord = true ∧ u.isWord = true)

theorem Settled.run (h : Settled σ us) (hs : Spaced ts s)
    (hapart : Apart (us.head?.toList ++ ts)) :
    ∃ σ', s.foldlM Scan.step σ = some σ' ∧ Settled σ' (ts.reverse ++ us) := by
  induction hs generalizing σ us with
  | nil => exact ⟨σ, rfl, h⟩
  | blank c hc _ ih =>
    have hstep : σ.step c = some ⟨.between, us⟩ := by
      rw [h.step (by simp [endsWord, hc])]
      simp [stepBetween, hc]
    obtain ⟨σ', hrun, hσ'⟩ := ih (.between us) hapart
    exact ⟨σ', by rw [List.foldlM_cons, hstep]; exact hrun, hσ'⟩
  | token ht _ ih =>
    rename_i ts s t w
    obtain ⟨τ, hτ, hsettled⟩ := h.run_token ht (by
      intro u hu
      rw [Option.mem_def.1 hu] at hapart
      exact (List.isChain_cons_cons.1 hapart).1)
    obtain ⟨σ', hrun, hσ'⟩ := ih hsettled (List.IsChain.right_of_append hapart)
    refine ⟨σ', ?_, ?_⟩
    · rw [List.foldlM_append, hτ]
      exact hrun
    · rw [List.reverse_cons, List.append_assoc]
      exact hσ'

inductive Open : Mode → List Char → Prop where
  | between : Open .between []
  | word (seen : List Char) : Open (.word seen) seen.reverse
  | string {seen : List Piece} {body : List Char} (h : BodySpelled seen.reverse body) :
      Open (.string seen) ('"' :: body)
  | escape {seen : List Piece} {body : List Char} (h : BodySpelled seen.reverse body) :
      Open (.escape seen) ('"' :: body ++ ['\\'])
  | hex {seen : List Piece} {body : List Char} {ds : List Nat} {cs : List Char} {missing : Nat}
      (h : BodySpelled seen.reverse body) (hcs : List.Forall₂ HexSpelled ds cs)
      (hmissing : 0 < missing) (hlength : ds.length + missing = 4) :
      Open (.hex seen missing (hexValue 0 ds)) ('"' :: body ++ '\\' :: 'u' :: cs)

def Traces (σ : Scan) (s : List Char) : Prop :=
  ∃ front back, Spaced σ.tokens.reverse front ∧ Open σ.mode back ∧ s = front ++ back

theorem traces_stepBetween {c : Char} (h : Spaced ts.reverse s) :
    Traces (stepBetween ts c) (s ++ [c]) := by
  unfold stepBetween
  split
  · rename_i hc
    exact ⟨s ++ [c], [], h.append_blank hc, .between, by simp⟩
  · split
    · rename_i hc
      exact ⟨s, ['"'], h, .string .nil, by rw [hc]⟩
    · split
      · rename_i t ht
        refine ⟨s ++ [c], [], ?_, .between, by simp⟩
        rw [List.reverse_cons]
        exact h.append_token (punctuation?_spelled ht)
      · exact ⟨s, [c], h, .word [c], rfl⟩

theorem BodySpelled.push {seen : List Piece} {p : Piece} {body : List Char}
    (h : BodySpelled seen.reverse body) (hp : p.Spelled w) :
    BodySpelled (p :: seen).reverse (body ++ w) := by
  rw [List.reverse_cons]
  exact h.append (.single hp)

theorem traces_string {seen : List Piece} {front body : List Char} {σ' : Scan} {c : Char}
    (hfront : Spaced ts.reverse front) (h : BodySpelled seen.reverse body)
    (hc : Scan.step ⟨.string seen, ts⟩ c = some σ') :
    Traces σ' (front ++ '"' :: body ++ [c]) := by
  simp only [Scan.step] at hc
  split at hc
  · rename_i hquote
    obtain rfl := Option.some.inj hc
    refine ⟨front ++ ('"' :: body ++ ['"']), [], ?_, .between, by simp [hquote]⟩
    rw [List.reverse_cons]
    exact hfront.append_token (.str (stringSpelled_join h))
  · rename_i hquote
    split at hc
    · rename_i hback
      obtain rfl := Option.some.inj hc
      exact ⟨front, _, hfront, .escape h, by simp [hback]⟩
    · rename_i hback
      split at hc
      · cases hc
      · rename_i hcontrol
        obtain rfl := Option.some.inj hc
        have hplain := Piece.Spelled.plain c hquote hback (Nat.le_of_not_lt hcontrol)
        exact ⟨front, _, hfront, .string (BodySpelled.push h hplain), by simp⟩

theorem traces_hex {seen : List Piece} {front body cs : List Char} {ds : List Nat}
    {missing : Nat} {σ' : Scan} {c : Char} (hfront : Spaced ts.reverse front)
    (h : BodySpelled seen.reverse body) (hcs : List.Forall₂ HexSpelled ds cs)
    (hmissing : 0 < missing) (hlength : ds.length + missing = 4)
    (hc : Scan.step ⟨.hex seen missing (hexValue 0 ds), ts⟩ c = some σ') :
    Traces σ' (front ++ ('"' :: body ++ '\\' :: 'u' :: cs) ++ [c]) := by
  simp only [Scan.step] at hc
  obtain ⟨d, hd, rfl⟩ := Option.map_eq_some_iff.1 hc
  have hmore := List.rel_append hcs (.cons (hexDigit?_eq_some_iff.1 hd) .nil)
  have hvalue : hexValue 0 (ds ++ [d]) = 16 * hexValue 0 ds + d := by
    rw [hexValue, List.foldl_append]
    rfl
  have hcount : (ds ++ [d]).length = ds.length + 1 := by
    rw [List.length_append, List.length_singleton]
  rw [← hvalue]
  split
  · have hunit := Piece.Spelled.unit (ds ++ [d]) _ (by omega) hmore
    exact ⟨front, _, hfront, .string (BodySpelled.push h hunit), by simp⟩
  · exact ⟨front, _, hfront, .hex h hmore (by omega) (by omega), by simp⟩

theorem Traces.step {σ' : Scan} {c : Char} (h : Traces σ s) (hc : σ.step c = some σ') :
    Traces σ' (s ++ [c]) := by
  obtain ⟨front, back, hfront, hback, rfl⟩ := h
  obtain ⟨mode, ts⟩ := σ
  cases hback with
  | between =>
    obtain rfl := Option.some.inj hc
    rw [List.append_nil]
    exact traces_stepBetween hfront
  | word seen =>
    simp only [Scan.step] at hc
    split at hc
    · obtain ⟨t, ht, rfl⟩ := Option.map_eq_some_iff.1 hc
      apply traces_stepBetween
      rw [List.reverse_cons]
      exact hfront.append_token (word?_eq_some_iff.1 ht).2
    · obtain rfl := Option.some.inj hc
      exact ⟨front, _, hfront, .word (c :: seen), by simp⟩
  | string h => exact traces_string hfront h hc
  | escape h =>
    simp only [Scan.step] at hc
    split at hc
    · rename_i hu
      obtain rfl := Option.some.inj hc
      have hnone : List.Forall₂ HexSpelled [] [] := .nil
      exact ⟨front, _, hfront, .hex h hnone (by decide) rfl, by simp [hu]⟩
    · obtain ⟨d, hd, rfl⟩ := Option.map_eq_some_iff.1 hc
      have hshort := Piece.Spelled.short c d (escape?_eq_some_iff.1 hd)
      exact ⟨front, _, hfront, .string (BodySpelled.push h hshort), by simp⟩
  | hex h hcs hmissing hlength => exact traces_hex hfront h hcs hmissing hlength hc

theorem Traces.run {σ' : Scan} (h : Traces σ s) (hr : r.foldlM Scan.step σ = some σ') :
    Traces σ' (s ++ r) := by
  induction r generalizing σ s with
  | nil =>
    obtain rfl := Option.some.inj hr
    rw [List.append_nil]
    exact h
  | cons c r ih =>
    rw [List.foldlM_cons] at hr
    obtain ⟨τ, hτ, hrest⟩ := Option.bind_eq_some_iff.1 hr
    rw [← List.singleton_append, ← List.append_assoc]
    exact ih (h.step hτ) hrest

theorem Traces.finish (h : Traces σ s) (hts : σ.finish? = some ts) : Spaced ts s := by
  obtain ⟨front, back, hfront, hback, rfl⟩ := h
  obtain ⟨mode, us⟩ := σ
  cases hback with
  | between =>
    obtain rfl := Option.some.inj hts
    rw [List.append_nil]
    exact hfront
  | word seen =>
    obtain ⟨t, ht, rfl⟩ := Option.map_eq_some_iff.1 hts
    rw [List.reverse_cons]
    exact hfront.append_token (word?_eq_some_iff.1 ht).2
  | _ => cases hts

end Scan

theorem tokens?_of_spaced (h : Spaced ts s) (hapart : Scan.Apart ts) : tokens? s = some ts := by
  obtain ⟨σ, hrun, hσ⟩ := (Scan.Settled.between []).run h hapart
  rw [tokens?, Scan.start, hrun, Option.bind_some, hσ.finish]
  simp

theorem spaced_of_tokens? (h : tokens? s = some ts) : Spaced ts s := by
  obtain ⟨σ, hrun, hfinish⟩ := Option.bind_eq_some_iff.1 h
  have hstart : Scan.Traces Scan.start [] := ⟨[], [], .nil, .between, rfl⟩
  exact (hstart.run hrun).finish hfinish

end UseGraph.Json
