import UseGraph.Json.Reader
import UseGraph.Proofs.Tokens

/-!
# Texts as values

The tokens of a value are fixed by the value, so a text spells a value when it
is a spelling of its tokens. The reader accepts exactly these texts and finds
the value they spell; what is written for a value is one of them.
-/

set_option autoImplicit false

namespace UseGraph.Json

variable {v w : Json} {ts : List Token} {r r' : Reading}

mutual

def tokens : Json → List Token
  | .null => [.null]
  | .bool b => [.bool b]
  | .num n => [.num n]
  | .str s => [.str s]
  | .arr vs => .openItems :: itemTokens vs
  | .obj ms => .openMembers :: memberTokens ms

def itemTokens : List Json → List Token
  | [] => [.closeItems]
  | v :: vs => tokens v ++ moreItemTokens vs

def moreItemTokens : List Json → List Token
  | [] => [.closeItems]
  | v :: vs => .comma :: tokens v ++ moreItemTokens vs

def memberTokens : List (Option String × Json) → List Token
  | [] => [.closeMembers]
  | (k, v) :: ms => .str k :: .colon :: tokens v ++ moreMemberTokens ms

def moreMemberTokens : List (Option String × Json) → List Token
  | [] => [.closeMembers]
  | (k, v) :: ms => .comma :: .str k :: .colon :: tokens v ++ moreMemberTokens ms

end

def Spells (v : Json) (s : List Char) : Prop := Spaced v.tokens s

theorem tokens_head (v : Json) : ∃ t ts, v.tokens = t :: ts ∧ t ≠ .closeItems := by
  cases v <;> exact ⟨_, _, by rw [tokens], by simp⟩

namespace Reading

theorem run_cons {t : Token} (h : r.step t = some r') :
    (t :: ts).foldlM step r = ts.foldlM step r' := by
  rw [List.foldlM_cons, h]
  rfl

/-- Where an item may come first, it is read as any other value. -/
theorem step_first {t : Token} (ht : t ≠ .closeItems) (frames : List Frame) :
    step ⟨.itemOrClose, frames⟩ t = value? (.items [] :: frames) t := by
  cases t with
  | closeItems => exact absurd rfl ht
  | _ => rfl

theorem run_first (v : Json) (frames : List Frame) :
    v.tokens.foldlM step ⟨.itemOrClose, frames⟩ =
      v.tokens.foldlM step ⟨.value, .items [] :: frames⟩ := by
  obtain ⟨t, ts, ht, hclose⟩ := tokens_head v
  rw [ht, List.foldlM_cons, List.foldlM_cons, step_first hclose]
  rfl

mutual

theorem run_value : ∀ (v : Json) (frames : List Frame),
    v.tokens.foldlM step ⟨.value, frames⟩ = some ⟨.after v, frames⟩
  | .null, _ => rfl
  | .bool _, _ => rfl
  | .num _, _ => rfl
  | .str _, _ => rfl
  | .arr vs, frames => by
    rw [tokens, List.foldlM_cons]
    exact run_items vs frames
  | .obj ms, frames => by
    rw [tokens, List.foldlM_cons]
    exact run_members ms frames

theorem run_items : ∀ (vs : List Json) (frames : List Frame),
    (itemTokens vs).foldlM step ⟨.itemOrClose, frames⟩ = some ⟨.after (.arr vs), frames⟩
  | [], _ => rfl
  | v :: vs, frames => by
    rw [itemTokens, List.foldlM_append, run_first, run_value v]
    exact run_moreItems vs [] v frames

theorem run_moreItems : ∀ (vs done : List Json) (v : Json) (frames : List Frame),
    (moreItemTokens vs).foldlM step ⟨.after v, .items done :: frames⟩ =
      some ⟨.after (.arr (done.reverse ++ v :: vs)), frames⟩
  | [], done, v, frames => by
    have hdone : (v :: done).reverse = done.reverse ++ [v] := List.reverse_cons
    rw [← hdone]
    rfl
  | w :: vs, done, v, frames => by
    have hrest := run_moreItems vs (v :: done) w frames
    rw [List.reverse_cons, List.append_assoc] at hrest
    rw [moreItemTokens, List.cons_append]
    refine (run_cons rfl).trans ?_
    rw [List.foldlM_append, run_value w]
    exact hrest

theorem run_members : ∀ (ms : List (Option String × Json)) (frames : List Frame),
    (memberTokens ms).foldlM step ⟨.keyOrClose, frames⟩ = some ⟨.after (.obj ms), frames⟩
  | [], _ => rfl
  | (k, v) :: ms, frames => by
    rw [memberTokens, List.cons_append, List.cons_append]
    refine (run_cons rfl).trans ((run_cons rfl).trans ?_)
    rw [List.foldlM_append, run_value v]
    exact run_moreMembers ms [] k v frames

theorem run_moreMembers : ∀ (ms done : List (Option String × Json)) (k : Option String) (v : Json)
    (frames : List Frame), (moreMemberTokens ms).foldlM step ⟨.after v, .members done k :: frames⟩ =
      some ⟨.after (.obj (done.reverse ++ (k, v) :: ms)), frames⟩
  | [], done, k, v, frames => by
    have hdone : ((k, v) :: done).reverse = done.reverse ++ [(k, v)] := List.reverse_cons
    rw [← hdone]
    rfl
  | (l, w) :: ms, done, k, v, frames => by
    have hrest := run_moreMembers ms ((k, v) :: done) l w frames
    rw [List.reverse_cons, List.append_assoc] at hrest
    rw [moreMemberTokens, List.cons_append, List.cons_append, List.cons_append]
    refine (run_cons rfl).trans ((run_cons rfl).trans ((run_cons rfl).trans ?_))
    rw [List.foldlM_append, run_value w]
    exact hrest

end

def memberTokens (m : Option String × Json) : List Token :=
  .str m.1 :: .colon :: m.2.tokens ++ [.comma]

def frameTokens : Frame → List Token
  | .items done => .openItems :: done.reverse.flatMap fun v => v.tokens ++ [.comma]
  | .members done k => .openMembers :: done.reverse.flatMap memberTokens ++ [.str k, .colon]

def expectTokens : Expect → List Token
  | .value => []
  | .itemOrClose => [.openItems]
  | .keyOrClose => [.openMembers]
  | .key done => .openMembers :: done.reverse.flatMap memberTokens
  | .colon done k => .openMembers :: done.reverse.flatMap memberTokens ++ [.str k]
  | .after v => v.tokens

def tokens (r : Reading) : List Token :=
  r.frames.reverse.flatMap frameTokens ++ expectTokens r.expect

theorem moreItemTokens_cons (v : Json) (vs : List Json) :
    moreItemTokens (v :: vs) = .comma :: itemTokens (v :: vs) := by
  rw [moreItemTokens, itemTokens, List.cons_append]

theorem itemTokens_append (vs : List Json) (v : Json) : itemTokens (vs ++ [v]) =
    (vs.flatMap fun w => w.tokens ++ [.comma]) ++ v.tokens ++ [.closeItems] := by
  induction vs with
  | nil => simp [itemTokens, moreItemTokens]
  | cons w vs ih =>
    obtain ⟨u, us, hu⟩ := List.exists_cons_of_ne_nil (show vs ++ [v] ≠ [] by simp)
    rw [List.cons_append, itemTokens, hu, moreItemTokens_cons, ← hu, ih]
    simp

theorem moreMemberTokens_cons (m : Option String × Json) (ms : List (Option String × Json)) :
    moreMemberTokens (m :: ms) = .comma :: Json.memberTokens (m :: ms) := by
  rw [moreMemberTokens, Json.memberTokens, List.cons_append]

theorem memberTokens_append (ms : List (Option String × Json)) (k : Option String) (v : Json) :
    Json.memberTokens (ms ++ [(k, v)]) =
      ms.flatMap memberTokens ++ [.str k, .colon] ++ v.tokens ++ [.closeMembers] := by
  induction ms with
  | nil => simp [Json.memberTokens, moreMemberTokens]
  | cons m ms ih =>
    obtain ⟨u, us, hu⟩ := List.exists_cons_of_ne_nil (show ms ++ [(k, v)] ≠ [] by simp)
    obtain ⟨l, w⟩ := m
    rw [List.cons_append, Json.memberTokens, hu, moreMemberTokens_cons, ← hu, ih]
    simp [memberTokens]

theorem tokens_value? {frames : List Frame} {t : Token} (h : value? frames t = some r) :
    r.tokens = frames.reverse.flatMap frameTokens ++ [t] := by
  cases t with
  | null => obtain rfl := Option.some.inj h; rfl
  | bool b => obtain rfl := Option.some.inj h; rfl
  | num n => obtain rfl := Option.some.inj h; rfl
  | str s => obtain rfl := Option.some.inj h; rfl
  | openItems => obtain rfl := Option.some.inj h; rfl
  | openMembers => obtain rfl := Option.some.inj h; rfl
  | _ => cases h

theorem tokens_after? {v : Json} {frames : List Frame} {t : Token}
    (h : after? v frames t = some r) :
    r.tokens = frames.reverse.flatMap frameTokens ++ v.tokens ++ [t] := by
  unfold after? at h
  split at h
  · obtain rfl := Option.some.inj h
    simp [tokens, frameTokens, expectTokens]
  · obtain rfl := Option.some.inj h
    simp [tokens, frameTokens, expectTokens, Json.tokens, itemTokens_append]
  · obtain rfl := Option.some.inj h
    simp [tokens, frameTokens, expectTokens, memberTokens]
  · obtain rfl := Option.some.inj h
    simp [tokens, frameTokens, expectTokens, Json.tokens, memberTokens_append]
  · cases h

/-- One step adds its token to what the place tells of, and nothing else. -/
theorem tokens_step {t : Token} (h : r.step t = some r') : r'.tokens = r.tokens ++ [t] := by
  obtain ⟨expect, frames⟩ := r
  cases expect with
  | value =>
    rw [tokens_value? h]
    simp [tokens, expectTokens]
  | itemOrClose =>
    by_cases ht : t = .closeItems
    · subst ht
      obtain rfl := Option.some.inj h
      simp [tokens, expectTokens, Json.tokens, itemTokens]
    · rw [step_first ht] at h
      rw [tokens_value? h]
      simp [tokens, expectTokens, frameTokens]
  | keyOrClose =>
    cases t with
    | closeMembers =>
      obtain rfl := Option.some.inj h
      simp [tokens, expectTokens, Json.tokens, Json.memberTokens]
    | str k =>
      obtain rfl := Option.some.inj h
      simp [tokens, expectTokens]
    | _ => cases h
  | key done =>
    cases t with
    | str k =>
      obtain rfl := Option.some.inj h
      simp [tokens, expectTokens]
    | _ => cases h
  | colon done k =>
    cases t with
    | colon =>
      obtain rfl := Option.some.inj h
      simp [tokens, expectTokens, frameTokens]
    | _ => cases h
  | after v =>
    rw [tokens_after? h]
    simp [tokens, expectTokens]

theorem tokens_run (h : ts.foldlM step r = some r') : r'.tokens = r.tokens ++ ts := by
  induction ts generalizing r with
  | nil =>
    obtain rfl := Option.some.inj h
    rw [List.append_nil]
  | cons t ts ih =>
    rw [List.foldlM_cons] at h
    obtain ⟨q, hq, hrest⟩ := Option.bind_eq_some_iff.1 h
    rw [ih hrest, tokens_step hq, List.append_assoc]
    rfl

theorem not_word_of_after? {v : Json} {frames : List Frame} {t : Token}
    (h : after? v frames t = some r) : t.isWord = false := by
  unfold after? at h
  split at h
  · rfl
  · rfl
  · rfl
  · rfl
  · cases h

theorem after_of_value? {frames : List Frame} {t : Token} (h : value? frames t = some r)
    (ht : t.isWord = true) : ∃ v, r.expect = .after v := by
  cases t with
  | null => obtain rfl := Option.some.inj h; exact ⟨_, rfl⟩
  | bool b => obtain rfl := Option.some.inj h; exact ⟨_, rfl⟩
  | num n => obtain rfl := Option.some.inj h; exact ⟨_, rfl⟩
  | _ => cases ht

/-- After a word comes what can follow a value. -/
theorem after_of_word {t : Token} (h : r.step t = some r') (ht : t.isWord = true) :
    ∃ v, r'.expect = .after v := by
  obtain ⟨expect, frames⟩ := r
  cases expect with
  | value => exact after_of_value? h ht
  | itemOrClose =>
    have hclose : t ≠ .closeItems := by
      rintro rfl
      cases ht
    rw [step_first hclose] at h
    exact after_of_value? h ht
  | keyOrClose =>
    cases t with
    | closeMembers => cases ht
    | str k => cases ht
    | _ => cases h
  | key done =>
    cases t with
    | str k => cases ht
    | _ => cases h
  | colon done k =>
    cases t with
    | colon => cases ht
    | _ => cases h
  | after v =>
    rw [not_word_of_after? h] at ht
    cases ht

/-- What the reader takes has no two words side by side. -/
theorem apart_of_run (h : ts.foldlM step r = some r') : Scan.Apart ts := by
  induction ts generalizing r with
  | nil => exact .nil
  | cons t ts ih =>
    rw [List.foldlM_cons] at h
    obtain ⟨q, hq, hrest⟩ := Option.bind_eq_some_iff.1 h
    cases ts with
    | nil => exact .singleton t
    | cons u ts =>
      refine List.isChain_cons_cons.2 ⟨?_, ih hrest⟩
      rintro ⟨ht, hu⟩
      obtain ⟨v, hv⟩ := after_of_word hq ht
      obtain ⟨expect, frames⟩ := q
      obtain rfl : expect = .after v := hv
      rw [List.foldlM_cons] at hrest
      obtain ⟨p, hp, -⟩ := Option.bind_eq_some_iff.1 hrest
      rw [not_word_of_after? hp] at hu
      cases hu

end Reading

theorem ofTokens?_eq_some_iff : ofTokens? ts = some v ↔ ts = v.tokens := by
  constructor
  · intro h
    obtain ⟨r, hr, hfinish⟩ := Option.bind_eq_some_iff.1 h
    have htokens := Reading.tokens_run hr
    unfold Reading.finish? at hfinish
    split at hfinish
    · obtain rfl := Option.some.inj hfinish
      exact htokens.symm
    · cases hfinish
  · rintro rfl
    rw [ofTokens?, Reading.start, Reading.run_value]
    rfl

/-- The reader finds a value exactly where the text spells it. -/
theorem read?_eq_some_iff {s : String} : read? s = some v ↔ v.Spells s.toList := by
  constructor
  · intro h
    obtain ⟨ts, hts, hv⟩ := Option.bind_eq_some_iff.1 h
    obtain rfl := ofTokens?_eq_some_iff.1 hv
    exact spaced_of_tokens? hts
  · intro h
    rw [read?, tokens?_of_spaced h (Reading.apart_of_run (Reading.run_value v []))]
    exact ofTokens?_eq_some_iff.2 rfl

/-- A text spells one value at most. -/
theorem Spells.unique {s : List Char} (hv : v.Spells s) (hw : w.Spells s) : v = w := by
  rw [← String.toList_ofList (l := s)] at hv hw
  exact Option.some.inj ((read?_eq_some_iff.2 hv).symm.trans (read?_eq_some_iff.2 hw))

/-- A character is written with a letter of its own, by its number or as it is. -/
theorem escapeChar_cases (c : Char) :
    (∃ e, (e, c) ∈ shortEscapes ∧ escapeChar c = ['\\', e]) ∨
    (c.toNat < 0x20 ∧ escapeChar c =
      ['\\', 'u', '0', '0', Nat.digitChar (c.toNat / 16), Nat.digitChar (c.toNat % 16)]) ∨
    (c ≠ '"' ∧ c ≠ '\\' ∧ 0x20 ≤ c.toNat ∧ escapeChar c = [c]) := by
  have hshort : ∀ d e, (e, d) ∈ shortEscapes → escapeChar d = ['\\', e] → c = d →
      ∃ e, (e, c) ∈ shortEscapes ∧ escapeChar c = ['\\', e] := by
    rintro d e he hd rfl
    exact ⟨e, he, hd⟩
  by_cases hquote : c = '"'
  · exact .inl (hshort '"' '"' (by simp [shortEscapes]) rfl hquote)
  by_cases hback : c = '\\'
  · exact .inl (hshort '\\' '\\' (by simp [shortEscapes]) rfl hback)
  by_cases hbell : c = '\x08'
  · exact .inl (hshort '\x08' 'b' (by simp [shortEscapes]) rfl hbell)
  by_cases htab : c = '\t'
  · exact .inl (hshort '\t' 't' (by simp [shortEscapes]) rfl htab)
  by_cases hline : c = '\n'
  · exact .inl (hshort '\n' 'n' (by simp [shortEscapes]) rfl hline)
  by_cases hpage : c = '\x0c'
  · exact .inl (hshort '\x0c' 'f' (by simp [shortEscapes]) rfl hpage)
  by_cases hreturn : c = '\r'
  · exact .inl (hshort '\r' 'r' (by simp [shortEscapes]) rfl hreturn)
  have hescape : escapeChar c = if c.toNat < 0x20 then
      ['\\', 'u', '0', '0', Nat.digitChar (c.toNat / 16), Nat.digitChar (c.toNat % 16)]
      else [c] := by
    simp only [escapeChar, hquote, hback, hbell, htab, hline, hpage, hreturn, or_self, if_false]
  by_cases hcontrol : c.toNat < 0x20
  · rw [if_pos hcontrol] at hescape
    exact .inr (.inl ⟨hcontrol, hescape⟩)
  · rw [if_neg hcontrol] at hescape
    exact .inr (.inr ⟨hquote, hback, by omega, hescape⟩)

theorem hexSpelled_digitChar {n : Nat} (h : n < 16) : HexSpelled n (Nat.digitChar n) :=
  ⟨h, .inl rfl⟩

/-- What is written for a character stands for itself, or for its one unit. -/
theorem spelled_escapeChar (c : Char) : ∃ p : Piece, p.Spelled (escapeChar c) ∧
    ∀ {ps : List Piece} {cs : List Char}, Denotes ps cs → Denotes (p :: ps) (c :: cs) := by
  rcases escapeChar_cases c with ⟨e, he, hc⟩ | ⟨hcontrol, hc⟩ | ⟨hquote, hback, hplain, hc⟩
  · rw [hc]
    exact ⟨.plain c, .short e c he, .plain c⟩
  · have hvalue : hexValue 0 [0, 0, c.toNat / 16, c.toNat % 16] = c.toNat := by
      simp only [hexValue, List.foldl_cons, List.foldl_nil]
      omega
    have hhigh := hexSpelled_digitChar (show c.toNat / 16 < 16 by omega)
    have hlow := hexSpelled_digitChar (show c.toNat % 16 < 16 by omega)
    have hzero := hexSpelled_digitChar (show 0 < 16 by decide)
    have hunit : (Piece.unit (hexValue 0 [0, 0, c.toNat / 16, c.toNat % 16])).Spelled _ :=
      .unit _ _ rfl (.cons hzero (.cons hzero (.cons hhigh (.cons hlow .nil))))
    rw [hvalue] at hunit
    rw [hc]
    exact ⟨.unit c.toNat, hunit, .unit c (by omega)⟩
  · rw [hc]
    exact ⟨.plain c, .plain c hquote hback hplain, .plain c⟩

theorem bodySpelled_flatMap (cs : List Char) :
    ∃ ps, BodySpelled ps (cs.flatMap escapeChar) ∧ Denotes ps cs := by
  induction cs with
  | nil => exact ⟨[], .nil, .nil⟩
  | cons c cs ih =>
    obtain ⟨p, hp, hdenotes⟩ := spelled_escapeChar c
    obtain ⟨ps, hps, hcs⟩ := ih
    exact ⟨p :: ps, (BodySpelled.single hp).append hps, hdenotes hcs⟩

theorem stringSpelled_renderString (text : Option String) :
    StringSpelled text (renderString text) := by
  cases text with
  | some s =>
    obtain ⟨ps, hbody, hdenotes⟩ := bodySpelled_flatMap s.toList
    exact .text s hbody hdenotes
  | none =>
    have hunit : Piece.Spelled (.unit 0xD800) ['\\', 'u', 'd', '8', '0', '0'] :=
      .unit [13, 8, 0, 0] _ rfl (by decide)
    have hbroken := stringSpelled_join (BodySpelled.single hunit)
    exact hbroken

mutual

/-- What is written for a value spells it. -/
theorem spells_render : ∀ v : Json, v.Spells v.render
  | .null => .token (s := []) .null .nil
  | .bool true => .token (s := []) .yes .nil
  | .bool false => .token (s := []) .no .nil
  | .num n => by
    have h := Spaced.token (.num (Decimal.Numeral.spelled_render n)) .nil
    rwa [List.append_nil] at h
  | .str s => by
    have h := Spaced.token (.str (stringSpelled_renderString s)) .nil
    rwa [List.append_nil] at h
  | .arr vs => by
    rw [Spells, tokens, render]
    exact .token .openItems (spaced_items vs)
  | .obj ms => by
    rw [Spells, tokens, render]
    exact .token .openMembers (spaced_members ms)

theorem spaced_items : ∀ vs : List Json, Spaced (itemTokens vs) (renderItems vs)
  | [] => .token (s := []) .closeItems .nil
  | v :: vs => by
    rw [itemTokens, renderItems]
    exact (spells_render v).append (spaced_moreItems vs)

theorem spaced_moreItems : ∀ vs : List Json, Spaced (moreItemTokens vs) (moreItems vs)
  | [] => .token (s := []) .closeItems .nil
  | v :: vs => by
    rw [moreItemTokens, moreItems, List.cons_append, List.cons_append]
    exact .token .comma ((spells_render v).append (spaced_moreItems vs))

theorem spaced_members : ∀ ms : List (Option String × Json),
    Spaced (memberTokens ms) (renderMembers ms)
  | [] => .token (s := []) .closeMembers .nil
  | (k, v) :: ms => by
    rw [memberTokens, renderMembers]
    simp only [List.cons_append, List.append_assoc]
    exact .token (.str (stringSpelled_renderString k))
      (.token .colon ((spells_render v).append (spaced_moreMembers ms)))

theorem spaced_moreMembers : ∀ ms : List (Option String × Json),
    Spaced (moreMemberTokens ms) (moreMembers ms)
  | [] => .token (s := []) .closeMembers .nil
  | (k, v) :: ms => by
    rw [moreMemberTokens, moreMembers]
    simp only [List.cons_append, List.append_assoc]
    exact .token .comma (.token (.str (stringSpelled_renderString k))
      (.token .colon ((spells_render v).append (spaced_moreMembers ms))))

end

theorem spells_write (v : Json) : v.Spells v.write.toList := by
  rw [write, String.toList_ofList]
  exact spells_render v

theorem read?_write (v : Json) : read? v.write = some v := read?_eq_some_iff.2 (spells_write v)

end UseGraph.Json
