import Handheld.Source.Survey

/-!
What readers take from the front of the tokens. The readers of constants, declarators and parameters take neither a
brace nor a semicolon, and how far they go does not depend on the numbers.
-/
namespace Handheld.Source

structure Cursor.Past (c : Cursor) (ts : List Lexeme) (c' : Cursor) : Prop where
  rest : c.rest = ts ++ c'.rest
  final : c'.final = c.final

def Token.isPlain : Token → Bool
  | .punct .lBrace | .punct .rBrace | .punct .semicolon => false
  | _ => true

def Token.isOperand : Token → Bool
  | .int _ | .str _ | .ident _ | .op _ => true
  | .punct .lParen | .punct .rParen | .punct .question | .punct .colon => true
  | _ => false

def Token.isConstant (macros : Macros) : Token → Bool
  | .ident x => (macros.lookup x).any fun | .int _ => true | .text _ => false
  | t => t.isOperand

def Each (p : Token → Bool) (ts : List Lexeme) : Prop :=
  ∀ l ∈ ts, p l.token

def Agree (m m' : Macros) (ts : List Lexeme) : Prop :=
  ∀ l ∈ ts, ∀ x, l.token = .ident x → m.lookup x = m'.lookup x

def Cursor.Closed (c : Cursor) : Prop :=
  c.eof.token = .eof

def Smooth (k : Nat) (ts : List Lexeme) : Prop :=
  ∀ (depth : Int) (rest : List Lexeme),
    Read.skipToSemicolon (depth + k) (ts ++ rest) = Read.skipToSemicolon depth rest

class Joins (P : List Lexeme → Prop) : Prop where
  nil : P []
  append {ts us : List Lexeme} : P ts → P us → P (ts ++ us)

instance {p : Token → Bool} : Joins (Each p) where
  nil := by rintro l ⟨⟩
  append hts hus l hl := (List.mem_append.mp hl).elim (hts l) (hus l)

instance : Joins fun _ => True where
  nil := trivial
  append _ _ := trivial

namespace Cursor

variable {c c1 c' : Cursor} {ts us : List Lexeme}

theorem Past.refl (c : Cursor) : c.Past [] c :=
  ⟨rfl, rfl⟩

theorem Past.trans (h : c.Past ts c1) (h' : c1.Past us c') : c.Past (ts ++ us) c' :=
  ⟨by rw [h.rest, h'.rest, List.append_assoc], h'.final.trans h.final⟩

theorem past_tail (c : Cursor) : c.Past (c.rest.take 1) c.tail := by
  refine ⟨?_, rfl⟩
  rw [tail, ← List.drop_one, List.take_append_drop]

theorem past_drop (c : Cursor) (n : Nat) : c.Past (c.rest.take n) { c with rest := c.rest.drop n } :=
  ⟨(List.take_append_drop n c.rest).symm, rfl⟩

theorem past_halt (c : Cursor) : c.Past c.rest c.halt :=
  ⟨(List.append_nil _).symm, rfl⟩

theorem Past.head_mem (h : c.Past ts c') : c.head ∈ ts ++ [c'.head] := by
  show c.rest.headD c.eof ∈ _
  rw [h.rest]
  cases ts with
  | nil => simp [head, eof, h.final]
  | cons t ts => exact List.mem_cons_self

theorem Closed.past (h : c.Closed) (hpast : c.Past ts c') : c'.Closed := by
  rw [Closed, eof, hpast.final]
  exact h

theorem Closed.tail (h : c.Closed) : c.tail.Closed :=
  h.past c.past_tail

theorem Closed.exists_cons (h : c.Closed) (hne : c.head.token ≠ .eof) : ∃ ls, c.rest = c.head :: ls := by
  cases hrest : c.rest with
  | nil =>
    rw [head, hrest] at hne
    exact (hne h).elim
  | cons l ls => exact ⟨ls, by rw [head, hrest]; rfl⟩

theorem Closed.take_one (h : c.Closed) (hne : c.head.token ≠ .eof) : c.rest.take 1 = [c.head] := by
  obtain ⟨ls, hrest⟩ := h.exists_cons hne
  rw [hrest]
  rfl

theorem each_take_one {p : Token → Bool} {t : Token} (hc : c.head.token = t) (ht : p t) : Each p (c.rest.take 1) := by
  intro l hl
  cases hrest : c.rest with
  | nil => simp [hrest] at hl
  | cons k ks =>
    rw [head, hrest] at hc
    rw [hrest, List.take_succ_cons, List.take_zero, List.mem_singleton] at hl
    rw [hl, show k.token = t from hc, ht]

end Cursor

section Agree

variable {m m' : Macros} {ts us : List Lexeme} {c c1 c' : Cursor}

theorem Agree.mono (h : Agree m m' us) (hsub : ts ⊆ us) : Agree m m' ts :=
  fun l hl => h l (hsub hl)

theorem Agree.left (h : Agree m m' (ts ++ us ++ [c'.head])) (hpast : c1.Past us c') : Agree m m' (ts ++ [c1.head]) := by
  rw [List.append_assoc] at h
  refine h.mono (List.append_subset.mpr ⟨List.subset_append_left _ _, ?_⟩)
  exact List.cons_subset.mpr ⟨List.mem_append_right ts hpast.head_mem, List.nil_subset _⟩

theorem Agree.right (h : Agree m m' (ts ++ us ++ [c'.head])) : Agree m m' (us ++ [c'.head]) := by
  rw [List.append_assoc] at h
  exact h.mono (List.subset_append_right _ _)

end Agree

namespace Read

variable {α β γ δ : Type} {m m' : Macros} {E F : Prop} {P Q : List Lexeme → Prop} {κ : α → γ} {c : Cursor}

/--
At a cursor, a reader that returns has taken tokens with a property. A second reader does the same if the macros agree on
these tokens and on the one behind, and `E` holds of what both got. In any case, if both return, they come to the same
place, and `κ` is the same of what they return.
-/
structure TakesAt (m m' : Macros) (E : Prop) (P : List Lexeme → Prop) (κ : α → γ) (x y : Read α) (c : Cursor) : Prop where
  ok : ∀ a c', x c = .ok a c' → ∃ ts, c.Past ts c' ∧ P ts ∧ (E → Agree m m' (ts ++ [c'.head]) → y c = .ok a c')
  alike : ∀ a c1 b c2, x c = .ok a c1 → y c = .ok b c2 → c1 = c2 ∧ κ a = κ b
  error : ∀ e c', x c = .error e c' → c'.final = c.final

def Takes (m m' : Macros) (E : Prop) (P : List Lexeme → Prop) (κ : α → γ) (x y : Read α) : Prop :=
  ∀ c, TakesAt m m' E P κ x y c

def Uniform (P : Macros → List Lexeme → Prop) (κ : α → γ) (x : Macros → Read α) : Prop :=
  ∀ (c : Cursor) {m m' : Macros}, TakesAt m m' True (P m) κ (x m) (x m') c

section Uniform

variable {P : Macros → List Lexeme → Prop} {x : Macros → Read α} {a b : α} {c1 c2 : Cursor}

theorem Uniform.past (h : Uniform P κ x) (hx : x m c = .ok a c1) : ∃ ts, c.Past ts c1 ∧ P m ts :=
  have ⟨ts, hpast, hts, _⟩ := (h c : TakesAt m m True (P m) κ (x m) (x m) c).ok a c1 hx
  ⟨ts, hpast, hts⟩

theorem Uniform.alike (h : Uniform P κ x) (hx : x m c = .ok a c1) (hy : x m' c = .ok b c2) : c1 = c2 ∧ κ a = κ b :=
  TakesAt.alike (h c) a c1 b c2 hx hy

end Uniform

namespace TakesAt

theorem mono {x y : Read α} (h : TakesAt m m' E P κ x y c) (hPQ : ∀ ts, P ts → Q ts) : TakesAt m m' E Q κ x y c where
  ok a c' hok :=
    have ⟨ts, hpast, hts, hsame⟩ := h.ok a c' hok
    ⟨ts, hpast, hPQ ts hts, hsame⟩
  alike := h.alike
  error := h.error

theorem when {x y : Read α} (h : TakesAt m m' E P κ x y c) (hFE : F → E) : TakesAt m m' F P κ x y c where
  ok a c' hok :=
    have ⟨ts, hpast, hts, hsame⟩ := h.ok a c' hok
    ⟨ts, hpast, hts, fun hF => hsame (hFE hF)⟩
  alike := h.alike
  error := h.error

theorem again {x : Read α} (h : TakesAt m m' E P κ x x c) : TakesAt m m True P id x x c where
  ok a c' hok :=
    have ⟨ts, hpast, hts, _⟩ := h.ok a c' hok
    ⟨ts, hpast, hts, fun _ _ => hok⟩
  alike _ _ _ _ hx hy := by
    cases hx.symm.trans hy
    exact ⟨rfl, rfl⟩
  error := h.error

theorem after [Joins P] {x y : Read α} {ts : List Lexeme} (hts : P ts) (h : TakesAt m m' E P κ x y c) :
    TakesAt m m' E (fun us => P (ts ++ us)) κ x y c :=
  h.mono fun _ => Joins.append hts

theorem pure {a b : α} (h : P []) (hκ : κ a = κ b) (hE : E → a = b) :
    TakesAt m m' E P κ (Pure.pure a) (Pure.pure b) c where
  ok a c' hok := by
    cases hok
    exact ⟨[], .refl c, h, fun h _ => by rw [hE h]; rfl⟩
  alike _ _ _ _ hx hy := by
    cases hx
    cases hy
    exact ⟨rfl, hκ⟩
  error e c' herror := by cases herror

theorem self {a : α} (h : P []) : TakesAt m m' E P κ (Pure.pure a) (Pure.pure a) c :=
  .pure h rfl fun _ => rfl

theorem throw {e : Error} {y : Read α} : TakesAt m m' E P κ (MonadExcept.throw e) y c where
  ok _ _ hok := by cases hok
  alike _ _ _ _ hx := by cases hx
  error e c' herror := by
    cases herror
    rfl

theorem throw_bind {e : Error} {f : β → Read α} {y : Read α} :
    TakesAt m m' E P κ ((MonadExcept.throw e : Read β) >>= f) y c :=
  throw (e := e)

theorem throw_right {e : Error} {x y : Read α} (h : TakesAt m m' F P κ x y c) (hE : ¬E) :
    TakesAt m m' E P κ x (MonadExcept.throw e) c where
  ok a c' hok :=
    have ⟨ts, hpast, hts, _⟩ := h.ok a c' hok
    ⟨ts, hpast, hts, fun h => (hE h).elim⟩
  alike _ _ _ _ _ hy := by cases hy
  error := h.error

theorem bind_of {x y : Read β} {f g : β → Read α} {ι : β → δ} (hx : TakesAt m m' True P ι x y c)
    (hf : ∀ a b ts c', ι a = ι b → c.Past ts c' → P ts →
      TakesAt m m' (E ∧ a = b) (fun us => Q (ts ++ us)) κ (f a) (g b) c')
    : TakesAt m m' E Q κ (x >>= f) (y >>= g) c where
  ok a c' hok := by
    simp only [Bind.bind, EStateM.bind] at hok
    split at hok
    next b c1 hb =>
      obtain ⟨ts, hpast, hts, hsame⟩ := hx.ok b c1 hb
      obtain ⟨us, hpast', hus, hsame'⟩ := (hf b b ts c1 rfl hpast hts).ok a c' hok
      refine ⟨ts ++ us, hpast.trans hpast', hus, fun hE hagree => ?_⟩
      simp only [Bind.bind, EStateM.bind, hsame trivial (hagree.left hpast')]
      exact hsame' ⟨hE, rfl⟩ hagree.right
    next => cases hok
  alike a c1 b c2 ha hb := by
    simp only [Bind.bind, EStateM.bind] at ha hb
    split at ha
    next a' c' hx' =>
      split at hb
      next b' c'' hy' =>
        obtain ⟨ts, hpast, hts, -⟩ := hx.ok a' c' hx'
        obtain ⟨rfl, hι⟩ := hx.alike a' c' b' c'' hx' hy'
        exact (hf a' b' ts c' hι hpast hts).alike a c1 b c2 ha hb
      next => cases hb
    next => cases ha
  error e c' herror := by
    simp only [Bind.bind, EStateM.bind] at herror
    split at herror
    next b c1 hb =>
      obtain ⟨ts, hpast, hts, -⟩ := hx.ok b c1 hb
      exact ((hf b b ts c1 rfl hpast hts).error e c' herror).trans hpast.final
    next hb =>
      cases herror
      exact hx.error e c' hb

theorem bind [Joins P] {x y : Read β} {f g : β → Read α} {ι : β → δ} (hx : TakesAt m m' True P ι x y c)
    (hf : ∀ a b, ι a = ι b → Takes m m' (E ∧ a = b) P κ (f a) (g b))
    : TakesAt m m' E P κ (x >>= f) (y >>= g) c :=
  hx.bind_of fun a b _ c' h _ hts => (hf a b h c').after hts

theorem same_of {x y : Read β} {f g : β → Read α} (hx : TakesAt m m' True P id x y c)
    (hf : ∀ b ts c', c.Past ts c' → P ts → TakesAt m m' E (fun us => Q (ts ++ us)) κ (f b) (g b) c')
    : TakesAt m m' E Q κ (x >>= f) (y >>= g) c :=
  hx.bind_of fun a b ts c' (h : a = b) hpast hts => h ▸ (hf a ts c' hpast hts).when And.left

theorem same [Joins P] {x y : Read β} {f g : β → Read α} (hx : TakesAt m m' True P id x y c)
    (hf : ∀ b, Takes m m' E P κ (f b) (g b))
    : TakesAt m m' E P κ (x >>= f) (y >>= g) c :=
  hx.same_of fun b _ c' _ hts => (hf b c').after hts

theorem get_bind {f g : Cursor → Read α} (h : TakesAt m m' E P κ (f c) (g c) c) :
    TakesAt m m' E P κ (get >>= f) (get >>= g) c :=
  ⟨h.ok, h.alike, h.error⟩

theorem peek_bind {f g : Lexeme → Read α} (h : TakesAt m m' E P κ (f c.head) (g c.head) c) :
    TakesAt m m' E P κ (peek >>= f) (peek >>= g) c := by
  obtain ⟨rest, final⟩ := c
  cases rest with
  | cons l ls => exact ⟨h.ok, h.alike, h.error⟩
  | nil =>
    cases final with
    | ok l => exact ⟨h.ok, h.alike, h.error⟩
    | error e =>
      constructor
      · rintro a c' ⟨⟩
      · rintro a c1 b c2 ⟨⟩
      · rintro e c' ⟨⟩
        rfl

theorem drop_bind {n : Nat} {f g : PUnit → Read α}
    (h : TakesAt m m' E (fun us => P (c.rest.take n ++ us)) κ (f ()) (g ()) { c with rest := c.rest.drop n })
    : TakesAt m m' E P κ (set { c with rest := c.rest.drop n } >>= f) (set { c with rest := c.rest.drop n } >>= g) c where
  ok a c' hok :=
    have ⟨_, hpast, hus, hsame⟩ := h.ok a c' hok
    ⟨_, (c.past_drop n).trans hpast, hus, fun hE hagree => hsame hE hagree.right⟩
  alike := h.alike
  error := h.error

theorem advance_bind {f g : Unit → Read α}
    (h : TakesAt m m' (E ∧ Agree m m' [c.head]) (fun us => P (c.rest.take 1 ++ us)) κ (f ()) (g ()) c.tail)
    : TakesAt m m' E P κ (modify Cursor.tail >>= f) (modify Cursor.tail >>= g) c where
  ok a c' hok := by
    obtain ⟨us, hpast, hus, hsame⟩ := h.ok a c' hok
    have hpast' := c.past_tail.trans hpast
    refine ⟨_, hpast', hus, fun hE hagree => hsame ⟨hE, ?_⟩ hagree.right⟩
    exact hagree.mono (List.cons_subset.mpr ⟨hpast'.head_mem, List.nil_subset _⟩)
  alike := h.alike
  error := h.error

theorem next_bind {f g : Lexeme → Read α}
    (h : TakesAt m m' (E ∧ Agree m m' [c.head]) (fun us => P (c.rest.take 1 ++ us)) κ (f c.head) (g c.head) c.tail)
    : TakesAt m m' E P κ (next >>= f) (next >>= g) c := by
  unfold next
  rw [bind_assoc, bind_assoc]
  refine .peek_bind ?_
  rw [bind_assoc, bind_assoc]
  exact .advance_bind h

theorem eat_bind {t : Token} {f g : Bool → Read α}
    (hyes : c.head.token = t → TakesAt m m' E (fun us => P (c.rest.take 1 ++ us)) κ (f true) (g true) c.tail)
    (hno : c.head.token ≠ t → TakesAt m m' E P κ (f false) (g false) c)
    : TakesAt m m' E P κ (eat t >>= f) (eat t >>= g) c := by
  unfold eat
  rw [bind_assoc, bind_assoc]
  refine .peek_bind ?_
  by_cases h : c.head.token = t
  · rw [if_pos (beq_iff_eq.mpr h), bind_assoc, bind_assoc]
    exact .advance_bind ((hyes h).when And.left)
  · rw [if_neg (by simpa using h)]
    exact hno h

theorem expect_bind {t : Token} {f g : Lexeme → Read α}
    (h : c.head.token = t → TakesAt m m' E (fun us => P (c.rest.take 1 ++ us)) κ (f c.head) (g c.head) c.tail)
    : TakesAt m m' E P κ (expect t >>= f) (expect t >>= g) c := by
  unfold expect
  rw [bind_assoc, bind_assoc]
  refine .next_bind ?_
  by_cases heq : c.head.token = t
  · rw [if_pos (beq_iff_eq.mpr heq)]
    exact (h heq).when And.left
  · rw [if_neg (by simpa using heq)]
    exact .throw_bind

end TakesAt

section Each

variable {t : Token} {p : Token → Bool}

theorem TakesAt.next_each {f g : Lexeme → Read α} (hc : c.head.token = t) (ht : p t)
    (h : TakesAt m m' E (Each p) κ (f c.head) (g c.head) c.tail)
    : TakesAt m m' E (Each p) κ (next >>= f) (next >>= g) c :=
  .next_bind ((h.when And.left).after (Cursor.each_take_one hc ht))

theorem TakesAt.eat_each {f g : Bool → Read α} (ht : p t) (h : ∀ b, Takes m m' E (Each p) κ (f b) (g b)) :
    TakesAt m m' E (Each p) κ (eat t >>= f) (eat t >>= g) c :=
  .eat_bind (fun heq => (h true _).after (Cursor.each_take_one heq ht)) fun _ => h false c

theorem takes_expect (ht : p t) : Uniform (fun _ => Each p) id fun _ => expect t := by
  intro c m m'
  rw [← bind_pure (expect t)]
  exact .expect_bind fun heq => (TakesAt.self Joins.nil).after (Cursor.each_take_one heq ht)

theorem takes_ident (hp : ∀ name, p (.ident name)) : Uniform (fun _ => Each p) id fun _ => ident := by
  intro c m m'
  unfold ident
  refine .next_bind ?_
  split
  next heq => exact (TakesAt.self Joins.nil).after (Cursor.each_take_one heq (hp _))
  next => exact .throw

end Each

end Read

open Read

section Constants

namespace Constant

mutual

theorem takes_ternary : (fuel : Nat) → Uniform (fun m => Each (Token.isConstant m)) (fun _ => ()) (ternary · fuel)
  | 0 => fun _ => .throw
  | fuel + 1 => by
    intro c m m'
    unfold ternary
    refine .bind (takes_binary fuel 1 c) fun cond cond' _ c => .eat_each rfl fun more c => ?_
    split
    next =>
      refine .bind (takes_ternary fuel c) fun yes yes' _ c => .same (takes_expect rfl c) fun _ c => ?_
      exact .bind (takes_ternary fuel c) fun no no' _ c => .pure Joins.nil rfl (by grind)
    next => exact .pure Joins.nil rfl And.right

theorem takes_binary :
    (fuel least : Nat) → Uniform (fun m => Each (Token.isConstant m)) (fun _ => ()) (binary · fuel least)
  | 0, _ => fun _ => .throw
  | fuel + 1, least => by
    intro c m m'
    unfold binary
    exact .bind (takes_unary fuel c) fun left left' _ c => (takes_binaryRest fuel least left left' c).when And.right

theorem takes_binaryRest : (fuel least : Nat) → (left left' : Int32) → (c : Cursor) → {m m' : Macros} →
    TakesAt m m' (left = left') (Each (Token.isConstant m)) (fun _ => ()) (binaryRest m fuel least left)
      (binaryRest m' fuel least left') c
  | 0, _, _, _, _, _, _ => .throw
  | fuel + 1, least, left, left', c, m, m' => by
    unfold binaryRest
    refine .peek_bind ?_
    split
    next op heq =>
      split
      next prec _ =>
        split
        next =>
          refine .next_each heq rfl (.bind (takes_binary fuel _ _) fun right right' _ c => ?_)
          refine (takes_binaryRest fuel least _ _ c).when ?_
          rintro ⟨rfl, rfl⟩
          rfl
        next => exact .pure Joins.nil rfl id
      next => exact .pure Joins.nil rfl id
    next => exact .pure Joins.nil rfl id

theorem takes_unary : (fuel : Nat) → Uniform (fun m => Each (Token.isConstant m)) (fun _ => ()) (unary · fuel)
  | 0 => fun _ => .throw
  | fuel + 1 => by
    intro c m m'
    change TakesAt _ _ _ _ _ (next >>= _) (next >>= _) c
    refine .next_bind ?_
    have hsub (f : Int32 → Int32) : Takes m m' (True ∧ Agree m m' [c.head]) (Each (Token.isConstant m)) (fun _ => ())
        (do return f (← unary m fuel)) (do return f (← unary m' fuel)) :=
      fun c => .bind (takes_unary fuel c) fun n n' _ c => .pure Joins.nil rfl fun h => congrArg f h.2
    cases heq : c.head.token with
    | int n => exact (TakesAt.self Joins.nil).after (Cursor.each_take_one heq rfl)
    | op o =>
      refine .after (Cursor.each_take_one heq rfl) ?_
      cases o with
      | binary b =>
        cases b with
        | sub => exact hsub _ _
        | add => exact (takes_unary fuel _).when fun _ => trivial
        | _ => exact .throw
      | tilde => exact hsub _ _
      | bang => exact hsub (fun n => truth (n == 0)) _
      | _ => exact .throw
    | punct p =>
      cases p with
      | lParen =>
        refine .after (Cursor.each_take_one heq rfl) ?_
        refine .bind (takes_ternary fuel _) fun n n' _ c => .same (takes_expect rfl c) fun _ c => ?_
        exact .pure Joins.nil rfl And.right
      | _ => exact .throw
    | ident name =>
      dsimp only
      cases hvalue : m.lookup name with
      | none => exact .throw
      | some value =>
        cases value with
        | text bytes => exact .throw
        | int n =>
          refine .after (Cursor.each_take_one heq (by rw [Token.isConstant, hvalue]; rfl)) ?_
          have hname (h : True ∧ Agree m m' [c.head]) : some (.int n) = m'.lookup name :=
            hvalue ▸ h.2 c.head List.mem_cons_self name heq
          have hself : TakesAt m m' True (Each (Token.isConstant m)) (fun _ => ()) (Pure.pure n) (Pure.pure n) c.tail :=
            .self Joins.nil
          cases hvalue' : m'.lookup name with
          | none => exact hself.throw_right fun h => by cases hvalue' ▸ hname h
          | some value' =>
            cases value' with
            | text bytes => exact hself.throw_right fun h => by cases hvalue' ▸ hname h
            | int n' => exact .pure Joins.nil rfl fun h => by cases hvalue' ▸ hname h; rfl
    | str | word | eof => exact .throw

end

end Constant

theorem takes_constant : Uniform (fun m => Each (Token.isConstant m)) (fun _ => ()) constant :=
  fun c _ _ => .get_bind (Constant.takes_ternary _ c)

variable {m m' : Macros}

theorem each_pieces (m : Macros) (ls : List Lexeme) : Each Token.isOperand (ls.take (pieces m ls).length) := by
  induction ls with
  | nil => exact Joins.nil
  | cons l ls ih =>
    unfold pieces
    split
    next bytes hpiece =>
      have hl : l.token.isOperand := by
        unfold piece? at hpiece
        split at hpiece
        next heq => rw [heq]; rfl
        next heq => rw [heq]; rfl
        next => cases hpiece
      intro k hk
      rw [List.length_cons, List.take_succ_cons, List.mem_cons] at hk
      exact hk.elim (fun heq => heq ▸ hl) (ih k)
    next => exact Joins.nil

theorem piece?_eq_of_agree {l : Lexeme} (h : Agree m m' [l]) : piece? m' l = piece? m l := by
  unfold piece?
  split
  next => rfl
  next name heq => rw [h l List.mem_cons_self name heq]
  next => rfl

theorem pieces_eq_of_agree {ls : List Lexeme} {l : Lexeme}
    (h : Agree m m' (ls.take (pieces m ls).length ++ [(ls.drop (pieces m ls).length).headD l]))
    : pieces m' ls = pieces m ls := by
  induction ls with
  | nil => rfl
  | cons k ls ih =>
    unfold pieces at h ⊢
    cases hpiece : piece? m k with
    | none =>
      simp only [hpiece] at h
      rw [piece?_eq_of_agree (l := k) h, hpiece]
    | some bytes =>
      simp only [hpiece, List.length_cons, List.take_succ_cons, List.drop_succ_cons, List.cons_append] at h
      rw [piece?_eq_of_agree (h.mono (by simp)), hpiece]
      exact congrArg _ (ih (h.mono (List.subset_cons_self _ _)))

theorem takesAt_string? (m : Macros) (c : Cursor) :
    TakesAt m m True (· = c.rest.take (pieces m c.rest).length) id (string? m) (string? m) c := by
  unfold string?
  exact .get_bind (.drop_bind (.peek_bind (.self (List.append_nil _))))

theorem takes_string? (m : Macros) : Takes m m True (Each Token.isOperand) id (string? m) (string? m) :=
  fun c => (takesAt_string? m c).mono fun _ hts => hts ▸ each_pieces m c.rest

theorem string?_of_agree {c c' : Cursor} {ts : List Lexeme} {found : Option (List UInt8)}
    (h : string? m c = .ok found c') (hpast : c.Past ts c') (hagree : Agree m m' (ts ++ [c'.head]))
    : string? m' c = .ok found c' := by
  obtain ⟨us, hpast', rfl, -⟩ := (takesAt_string? m c).ok found c' h
  cases List.append_cancel_right (hpast.rest.symm.trans hpast'.rest)
  have hrest := List.append_cancel_left (hpast.rest.symm.trans (List.take_append_drop _ _).symm)
  rw [Cursor.head, hrest] at hagree
  rw [← h]
  show (do let _ ← peek; return _ : Read (Option (List UInt8))) { c with rest := c.rest.drop _ } = _
  rw [pieces_eq_of_agree hagree]
  rfl

end Constants

theorem Token.isPlain_of_isOperand {t : Token} (h : t.isOperand) : t.isPlain := by
  cases t with
  | punct p =>
    cases p with
    | lBrace | rBrace | semicolon => cases h
    | _ => rfl
  | _ => rfl

theorem Each.operands {macros : Macros} {ts : List Lexeme} (h : Each (Token.isConstant macros) ts) :
    Each Token.isOperand ts := by
  intro l hl
  have hconstant := h l hl
  cases htoken : l.token with
  | ident => rfl
  | _ => rwa [htoken] at hconstant

theorem Each.plain {ts : List Lexeme} (h : Each Token.isOperand ts) : Each Token.isPlain ts :=
  fun l hl => Token.isPlain_of_isOperand (h l hl)

theorem takes_base? : Uniform (fun _ => Each Token.isPlain) id fun _ => base? := by
  intro c m m'
  unfold base?
  refine .peek_bind ?_
  split
  next w heq =>
    split
    next => exact .next_each heq rfl (.self Joins.nil)
    next => exact .self Joins.nil
  next => exact .self Joins.nil

theorem takes_stars : Uniform (fun _ => Each Token.isPlain) id fun _ => stars := by
  intro c m m'
  unfold stars
  refine .get_bind (.drop_bind (.after ?_ (.self Joins.nil)))
  intro l hl
  have htaken := List.prefix_iff_eq_take.mp (List.takeWhile_prefix (l := c.rest) (·.token == .op (.binary .mul)))
  rw [← htaken] at hl
  have hstar := List.all_eq_true.mp List.all_takeWhile l hl
  rw [eq_of_beq hstar]
  rfl

theorem takes_extents : (fuel : Nat) → Uniform (fun _ => Each Token.isPlain) List.isEmpty (extents · fuel)
  | 0 => fun _ => .throw
  | fuel + 1 => by
    intro c m m'
    unfold extents
    refine .eat_each rfl fun opened c => ?_
    split
    next => exact .self Joins.nil
    next =>
      refine .eat_each rfl fun closed c => ?_
      have hrest (n n' : Option Nat) : Takes m m' (n = n') (Each Token.isPlain) List.isEmpty
          (do return n :: (← extents m fuel)) (do return n' :: (← extents m' fuel)) :=
        fun c => .bind (takes_extents fuel c) fun _ _ _ c => .pure Joins.nil rfl (by grind)
      split
      next => exact (hrest none none c).when fun _ => rfl
      next =>
        refine .peek_bind (.bind ((takes_constant c).mono fun _ h => h.operands.plain) fun n n' _ c => ?_)
        have hrest (n' : Int32) : Takes m m' (n = n') (Each Token.isPlain) List.isEmpty
            (do let _ ← expect (.punct .rBracket); return some n.toInt.toNat :: (← extents m fuel))
            (do let _ ← expect (.punct .rBracket); return some n'.toInt.toNat :: (← extents m' fuel)) :=
          fun c => .same (takes_expect rfl c) fun _ c => (hrest _ _ c).when fun h => h ▸ rfl
        split
        next => exact .throw_bind
        next hn =>
          split
          next hn' => exact (hrest n c).throw_right (e := _) (by grind)
          next => exact (hrest n' c).when And.right

theorem takes_declarator :
    Uniform (fun _ => Each Token.isPlain) (fun d => (d.name, d.pointer, d.dims.isEmpty)) declarator := by
  intro c m m'
  unfold declarator
  refine .same (takes_stars c) fun pointer c => .same (takes_ident (fun _ => rfl) c) fun name c => .get_bind ?_
  exact .bind (takes_extents _ c) fun dims dims' h c => .pure Joins.nil (by rw [h]) (by grind)

theorem takes_paramBrackets : (fuel : Nat) → Uniform (fun _ => Each Token.isPlain) id (paramBrackets · fuel)
  | 0 => fun _ => .throw
  | fuel + 1 => by
    intro c m m'
    unfold paramBrackets
    refine .eat_each rfl fun opened c => ?_
    split
    next => exact .self Joins.nil
    next =>
      refine .eat_each rfl fun closed c => ?_
      have hrest : Uniform (fun _ => Each Token.isPlain) id fun m => do return (← paramBrackets m fuel) + 1 :=
        fun c => .same (takes_paramBrackets fuel c) fun _ c => .self Joins.nil
      split
      next =>
        exact .bind ((takes_constant c).mono fun _ h => h.operands.plain) fun _ _ _ c =>
          .same (takes_expect rfl c) fun _ c => (hrest c).when fun _ => trivial
      next => exact hrest c

theorem takes_param (base : Base) (span : Span) : Uniform (fun _ => Each Token.isPlain) id (param · base span) := by
  intro c m m'
  unfold param
  have hrest (pointer : UInt8) (p : Option String × Span) : Uniform (fun _ => Each Token.isPlain) id fun macros => do
      let brackets ← paramBrackets macros ((← get).rest.length + 1)
      let ty : Ty := { base := base, pointer := pointer + brackets }
      if ty.isVoid then throw (Problem.voidParameter.inSpan p.2)
      return { name := p.1, ty := ty, span := p.2 : Param } := by
    intro c m m'
    refine .get_bind (.same (takes_paramBrackets _ c) fun brackets c => ?_)
    dsimp only
    split
    next => exact .throw_bind
    next => exact .self Joins.nil
  refine .same (takes_stars c) fun pointer c => .peek_bind ?_
  split
  next heq => exact .next_each heq rfl (hrest pointer (_, _) _)
  next => exact hrest pointer (_, _) c

theorem takes_paramsRest :
    (first : Bool) → (fuel : Nat) → Uniform (fun _ => Each Token.isPlain) id (paramsRest · first fuel)
  | _, 0 => fun _ => .throw
  | first, fuel + 1 => by
    intro c m m'
    unfold paramsRest
    refine .peek_bind (.same (takes_base? c) fun base c => ?_)
    split
    next => exact .throw
    next base =>
      have hrest (span : Span) : Uniform (fun _ => Each Token.isPlain) id fun macros => do
          let p ← param macros base span
          if ← eat (.punct .rParen) then return [p]
          let _ ← expect (.punct .comma)
          return p :: (← paramsRest macros false fuel) := by
        intro c m m'
        refine .same (takes_param base span c) fun p c => .eat_each rfl fun closed c => ?_
        split
        next => exact .self Joins.nil
        next =>
          refine .same (takes_expect rfl c) fun _ c => ?_
          exact .same (takes_paramsRest false fuel c) fun ps c => .self Joins.nil
      split
      next =>
        refine .eat_each rfl fun closed c => ?_
        split
        next => exact .self Joins.nil
        next => exact hrest _ c
      next => exact hrest _ c

theorem takes_params : Uniform (fun _ => Each Token.isPlain) id params := by
  intro c m m'
  unfold params
  refine .same (takes_expect rfl c) fun _ c => .eat_each rfl fun closed c => ?_
  split
  next => exact .self Joins.nil
  next => exact .get_bind (takes_paramsRest true _ c)

section Smooth

variable {k : Nat} {ts us : List Lexeme} {l : Lexeme}

theorem smooth_nil : Smooth 0 [] := by
  intro depth rest
  rw [List.nil_append, Int.natCast_zero, Int.add_zero]

theorem Smooth.append (hts : Smooth 0 ts) (hus : Smooth k us) : Smooth k (ts ++ us) := by
  intro depth rest
  have h := hts (depth + k) (us ++ rest)
  rw [Int.natCast_zero, Int.add_zero] at h
  rw [List.append_assoc, h, hus]

instance : Joins (Smooth 0) where
  nil := smooth_nil
  append := Smooth.append

theorem smooth_rBrace (h : l.token = .punct .rBrace) : Smooth 1 [l] := by
  intro depth rest
  rw [List.singleton_append, skipToSemicolon, h]
  simp

theorem Smooth.braced (h : l.token = .punct .lBrace) (hts : Smooth 1 ts) : Smooth 0 (l :: ts) := by
  intro depth rest
  rw [List.cons_append, skipToSemicolon, h]
  have hrest := hts depth rest
  simpa using hrest

theorem smooth_of_each (h : Each Token.isPlain ts) : Smooth 0 ts := by
  induction ts with
  | nil => exact smooth_nil
  | cons l ts ih =>
    have hl : l.token.isPlain := h l List.mem_cons_self
    have hrest := ih fun k hk => h k (List.mem_cons_of_mem l hk)
    intro depth rest
    have hne (t : Token) (ht : t.isPlain = false) : (l.token == t) = false :=
      beq_eq_false_iff_ne.mpr fun heq => by simp [heq, ht] at hl
    rw [List.cons_append, skipToSemicolon, hne (.punct .lBrace) rfl, hne (.punct .rBrace) rfl,
      hne (.punct .semicolon) rfl]
    exact hrest depth rest

variable (macros : Macros)

mutual

theorem takesAt_initializer : (fuel : Nat) → (c : Cursor) →
    TakesAt macros macros True (fun ts => c.Closed → Smooth 0 ts) id (initializer macros fuel) (initializer macros fuel) c
  | 0, _ => .throw
  | fuel + 1, c => by
    unfold initializer
    refine .eat_bind ?_ ?_
    · intro hopen
      refine .same_of (takesAt_initializers fuel c.tail) fun items ts c' _ hts => .self fun hclosed => ?_
      rw [hclosed.take_one (by simp [hopen]), List.append_nil]
      exact (hts hclosed.tail).braced hopen
    · intro _
      refine .mono (P := Smooth 0) ?_ fun _ hts _ => hts
      refine .same ((takes_string? macros c).mono fun _ h => smooth_of_each h.plain) fun text c => ?_
      cases text with
      | some bytes => exact .self smooth_nil
      | none =>
        have hconstant := (takes_constant (m := macros) c).again.mono fun _ h => smooth_of_each h.operands.plain
        exact .same hconstant fun n c => .self smooth_nil

theorem takesAt_initializers : (fuel : Nat) → (c : Cursor) →
    TakesAt macros macros True (fun ts => c.Closed → Smooth 1 ts) id (initializers macros fuel) (initializers macros fuel) c
  | 0, _ => .throw
  | fuel + 1, c => by
    unfold initializers
    refine .eat_bind ?_ ?_
    · intro hclose
      refine .self fun hclosed => ?_
      rw [hclosed.take_one (by simp [hclose])]
      exact smooth_rBrace hclose
    · intro _
      refine .same_of (takesAt_initializer fuel c) fun item ts c1 hpast hts => .eat_bind ?_ ?_
      · intro hcomma
        have hcomma' : Smooth 0 (c1.rest.take 1) := smooth_of_each (Cursor.each_take_one hcomma rfl)
        refine .same_of (takesAt_initializers fuel c1.tail) fun items us c2 _ hus => .self fun hclosed => ?_
        rw [List.append_nil]
        exact (hts hclosed).append (hcomma'.append (hus (hclosed.past hpast).tail))
      · intro _
        refine .expect_bind fun hclose => .self fun hclosed => ?_
        rw [(hclosed.past hpast).take_one (by simp [hclose])]
        exact (hts hclosed).append (smooth_rBrace hclose)

end

theorem takesAt_globalRest (g : Globals) (d : Declarator) (ty : Ty) (c : Cursor) :
    TakesAt g.macros g.macros True (fun ts => c.Closed → Smooth 0 ts) id (globalRest g d ty) (globalRest g d ty) c := by
  unfold globalRest
  dsimp only
  split
  next => exact .throw_bind
  next =>
    refine .eat_bind ?_ ?_
    · intro hassign
      have hsmooth : Smooth 0 (c.rest.take 1) := smooth_of_each (Cursor.each_take_one hassign rfl)
      refine .get_bind ?_
      rw [map_eq_pure_bind, bind_assoc]
      refine .same_of (takesAt_initializer g.macros _ c.tail) fun init ts c' _ hts => ?_
      rw [pure_bind]
      split
      next =>
        refine .self fun hclosed => ?_
        rw [List.append_nil]
        exact hsmooth.append (hts hclosed.tail)
      next => exact .throw
    · intro _
      refine .mono (P := Smooth 0) (.same (.self smooth_nil) fun init c => ?_) fun _ hts _ => hts
      split
      next => exact .self smooth_nil
      next => exact .throw

end Smooth

end Handheld.Source
