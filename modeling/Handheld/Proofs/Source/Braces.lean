import Handheld.Proofs.Source.Declarations
import Handheld.Proofs.Source.Spelling

/-!
A tree that was read without an error took tokens whose braces match, so its reader ends where a search for the closing
brace ends.
-/
namespace Handheld.Source

mutual

def Expr.isSound : Expr → Bool
  | missing _ | cut _ _ => false
  | num _ | str _ | name _ _ => true
  | call _ _ args => areSound args
  | index base _ sub => base.isSound && sub.isSound
  | step _ _ _ e | unary _ _ e => e.isSound
  | binary _ _ left right | logic _ _ left right => left.isSound && right.isSound
  | assign _ left right | update _ _ left right | comma left right => left.isSound && right.isSound
  | ternary _ cond yes no => cond.isSound && yes.isSound && no.isSound

def Expr.areSound : List Expr → Bool
  | [] => true
  | e :: es => e.isSound && areSound es

end

def Declared.isSound : Declared → Bool
  | missing _ | function _ => false
  | plain _ | text _ _ => true
  | scalar _ value => value.isSound
  | list _ elements => elements.all (·.value.isSound)

mutual

def Stmt.isSound : Stmt → Bool
  | missing _ | cut _ _ => false
  | empty | case _ _ | default _ | breakOut _ | goOn _ => true
  | block body => areSound body
  | expr e => e.isSound
  | declare _ items => items.all (·.isSound)
  | ifThen _ cond yes => cond.isSound && yes.isSound
  | ifElse _ cond yes no => cond.isSound && yes.isSound && no.isSound
  | whileLoop _ cond body => cond.isSound && body.isSound
  | doLoop body _ cond => body.isSound && cond.isSound
  | forLoop _ init cond step body => init.isSound && cond.all (·.isSound) && step.all (·.isSound) && body.isSound
  | switch _ _ cond body => cond.isSound && body.isSound
  | ret _ value => value.all (·.isSound)

def Stmt.areSound : List Stmt → Bool
  | [] => true
  | s :: ss => s.isSound && areSound ss

end

def Matched (k : Nat) (ts : List Lexeme) : Prop :=
  ∀ (depth : Nat) (rest : List Lexeme), Read.skipBraces (depth + 1 + k) (ts ++ rest) = Read.skipBraces (depth + 1) rest

def Token.isBrace : Token → Bool
  | .punct .lBrace | .punct .rBrace => true
  | _ => false

section Matched

variable {k k' : Nat} {ts us : List Lexeme} {l : Lexeme}

theorem matched_nil : Matched 0 [] :=
  fun _ _ => rfl

theorem Matched.append (hts : Matched 0 ts) (hus : Matched k us) : Matched k (ts ++ us) := by
  intro depth rest
  have h := hts (depth + k) (us ++ rest)
  rw [Nat.add_zero, Nat.add_right_comm] at h
  rw [List.append_assoc, h, hus]

theorem matched_singleton (h : l.token.isBrace = false) : Matched 0 [l] := by
  intro depth rest
  have hne (t : Token) (ht : t.isBrace) : (l.token == t) = false :=
    beq_eq_false_iff_ne.mpr fun heq => by simp [heq, ht] at h
  rw [List.singleton_append, Nat.add_zero, Read.skipBraces, hne (.punct .lBrace) rfl, hne (.punct .rBrace) rfl]
  rfl

theorem Matched.opened (h : l.token = .punct .lBrace) (hts : Matched (k + 1) ts) : Matched k (l :: ts) := by
  intro depth rest
  rw [List.cons_append, Nat.add_right_comm, Read.skipBraces, h]
  simp only [beq_self_eq_true, if_true]
  rw [show depth + k + 2 = depth + 1 + (k + 1) by omega]
  exact hts depth rest

theorem Matched.closed (h : l.token = .punct .rBrace) (hts : Matched k ts) : Matched (k + 1) (l :: ts) := by
  intro depth rest
  rw [List.cons_append, ← Nat.add_assoc, Read.skipBraces, h]
  exact hts depth rest

theorem matched_of_each (h : Each (!·.isBrace) ts) : Matched 0 ts := by
  induction ts with
  | nil => exact matched_nil
  | cons l ts ih =>
    have hl : (!l.token.isBrace) = true := h l List.mem_cons_self
    exact (matched_singleton (by simpa using hl)).append (ih fun k hk => h k (List.mem_cons_of_mem l hk))

theorem Token.isBrace_of_isPlain {t : Token} (h : t.isPlain) : t.isBrace = false := by
  unfold isBrace
  split
  next => cases h
  next => cases h
  next => rfl

theorem Each.braceless (h : Each Token.isPlain ts) : Each (!·.isBrace) ts :=
  fun l hl => by simp [Token.isBrace_of_isPlain (h l hl)]

end Matched

theorem of_string? {macros : Macros} {c c' : Cursor} (h : Source.string? macros c = .ok none c') : c' = c := by
  change (do let _ ← Read.peek; return _ : Read (Option (List UInt8))) { c with rest := c.rest.drop _ } = _ at h
  obtain ⟨l, c1, hpeek, hrest⟩ := Read.bind_eq_ok_iff.mp h
  obtain ⟨-, rfl⟩ := Read.of_peek hpeek
  cases hpieces : pieces macros c.rest with
  | nil =>
    rw [hpieces] at hrest
    cases hrest
    rfl
  | cons piece ps =>
    rw [hpieces] at hrest
    cases hrest

namespace Grammar

variable {α β γ : Type} {m m' : Macros} {k : Nat} {A B : Prop} {S S' : α → Prop} {c : Cursor}

/--
At a cursor, a reader moves forward. If its result has the property `S`, then `A` was true before, the braces of the
tokens that it took match, and a second reader does the same if the macros agree on these tokens and on the one behind.
-/
def TakesAt (m m' : Macros) (k : Nat) (A : Prop) (S : α → Prop) (x y : Tree α) (c : Cursor) : Prop :=
  c.Closed → ∃ ts, c.Past ts (x c).2
    ∧ (S (x c).1 → A ∧ Matched k ts ∧ (Agree m m' (ts ++ [(x c).2.head]) → y c = x c))

def Takes (m m' : Macros) (k : Nat) (A : Prop) (S : α → Prop) (x y : Tree α) : Prop :=
  ∀ c, TakesAt m m' k A S x y c

def Uniform (k : Nat) (A : Prop) (S : α → Prop) (x : Macros → Tree α) : Prop :=
  ∀ (c : Cursor) {m m' : Macros}, TakesAt m m' k A S (x m) (x m') c

theorem Uniform.past {x : Macros → Tree α} (h : Uniform k A S x) (m : Macros) (hclosed : c.Closed) :
    ∃ ts, c.Past ts (x m c).2 ∧ (S (x m c).1 → A ∧ Matched k ts) := by
  obtain ⟨ts, hpast, hts⟩ := (h c : TakesAt m m k A S _ _ c) hclosed
  exact ⟨ts, hpast, fun hS => ⟨(hts hS).1, (hts hS).2.1⟩⟩

namespace TakesAt

theorem mono {x y : Tree α} (h : TakesAt m m' k A S x y c) (hA : A → B) : TakesAt m m' k B S x y c := by
  intro hclosed
  obtain ⟨ts, hpast, hts⟩ := h hclosed
  exact ⟨ts, hpast, fun hS => ⟨hA (hts hS).1, (hts hS).2⟩⟩

theorem of_closed {x y : Tree α} (h : c.Closed → TakesAt m m' k A S x y c) : TakesAt m m' k A S x y c :=
  fun hclosed => h hclosed hclosed

theorem pure {a : α} (h : S a → A) : TakesAt m m' 0 A S (Pure.pure a : Tree α) (Pure.pure a) c :=
  fun _ => ⟨[], .refl c, fun hS => ⟨h hS, matched_nil, fun _ => rfl⟩⟩

theorem fail {a : α} {y : Tree α} (h : ¬S a) : TakesAt m m' k A S (Pure.pure a : Tree α) y c :=
  fun _ => ⟨[], .refl c, fun hS => (h hS).elim⟩

theorem bind_of {T : β → Prop} {x y : Tree β} {f g : β → Tree α} (hx : TakesAt m m' 0 B T x y c)
    (hf : ∀ b, Takes m m' k (A ∧ T b) S (f b) (g b))
    : TakesAt m m' k (A ∧ B) S (x >>= f) (y >>= g) c := by
  intro hclosed
  obtain ⟨ts, hpast, hts⟩ := hx hclosed
  obtain ⟨us, hpast', hus⟩ := hf _ _ (hclosed.past hpast)
  refine ⟨ts ++ us, hpast.trans hpast', fun hS => ?_⟩
  obtain ⟨⟨hA, hT⟩, hus, hsame'⟩ := hus hS
  obtain ⟨hB, hts, hsame⟩ := hts hT
  refine ⟨⟨hA, hB⟩, hts.append hus, fun hagree => ?_⟩
  rw [bind_apply, hsame (hagree.left hpast')]
  exact hsame' hagree.right

theorem bind {T : β → Prop} {x y : Tree β} {f g : β → Tree α} (hx : TakesAt m m' 0 True T x y c)
    (hf : ∀ b, Takes m m' k (A ∧ T b) S (f b) (g b))
    : TakesAt m m' k A S (x >>= f) (y >>= g) c :=
  (hx.bind_of hf).mono And.left

theorem last_of {T : β → Prop} {x y : Tree β} {f : β → α} (hx : TakesAt m m' k B T x y c) (hf : ∀ b, S (f b) → A ∧ T b)
    : TakesAt m m' k (A ∧ B) S (x >>= fun b => Pure.pure (f b)) (y >>= fun b => Pure.pure (f b)) c := by
  intro hclosed
  obtain ⟨ts, hpast, hts⟩ := hx hclosed
  refine ⟨ts, hpast, fun hS => ?_⟩
  obtain ⟨hA, hT⟩ := hf _ hS
  obtain ⟨hB, hts, hsame⟩ := hts hT
  refine ⟨⟨hA, hB⟩, hts, fun hagree => ?_⟩
  rw [bind_apply, hsame hagree]
  rfl

theorem last {T : β → Prop} {x y : Tree β} {f : β → α} (hx : TakesAt m m' k True T x y c) (hf : ∀ b, S (f b) → A ∧ T b)
    : TakesAt m m' k A S (x >>= fun b => Pure.pure (f b)) (y >>= fun b => Pure.pure (f b)) c :=
  (hx.last_of hf).mono And.left

theorem peek_bind {f g : Lexeme → Tree α} (h : TakesAt m m' k A S (f c.head) (g c.head) c) :
    TakesAt m m' k A S (peek >>= f) (peek >>= g) c :=
  h

theorem behind {k' : Nat} {x y x' y' : Tree α} {c' : Cursor} {ts : List Lexeme} (hpast : c.Past ts c')
    (hx : x c = x' c') (hy : Agree m m' (ts ++ [c'.head]) → y c = y' c')
    (hts : ∀ us, Matched k' us → Matched k (ts ++ us)) (h : TakesAt m m' k' A S x' y' c')
    : TakesAt m m' k A S x y c := by
  intro hclosed
  obtain ⟨us, hpast', hus⟩ := h (hclosed.past hpast)
  rw [hx]
  refine ⟨ts ++ us, hpast.trans hpast', fun hS => ?_⟩
  obtain ⟨hA, hus, hsame⟩ := hus hS
  exact ⟨hA, hts us hus, fun hagree => (hy (hagree.left hpast')).trans (hsame hagree.right)⟩

theorem advance_bind {t : Token} {f g : Unit → Tree α} (hl : c.head.token = t) (ht : t.isBrace = false)
    (h : TakesAt m m' k A S (f ()) (g ()) c.tail)
    : TakesAt m m' k A S (advance >>= f) (advance >>= g) c := by
  refine .behind c.past_tail rfl (fun _ => rfl) (fun us => Matched.append (matched_of_each ?_)) h
  exact Cursor.each_take_one hl (by simp [ht])

theorem advance_close {f g : Unit → Tree α} (hl : c.head.token = .punct .rBrace)
    (h : TakesAt m m' k A S (f ()) (g ()) c.tail)
    : TakesAt m m' (k + 1) A S (advance >>= f) (advance >>= g) c := by
  refine .of_closed fun hclosed => .behind c.past_tail rfl (fun _ => rfl) (fun us hus => ?_) h
  rw [hclosed.take_one (by simp [hl])]
  exact hus.closed hl

theorem next_bind {f g : Lexeme → Tree α} (hl : c.head.token.isBrace = false)
    (h : TakesAt m m' k A S (f c.head) (g c.head) c.tail)
    : TakesAt m m' k A S (next >>= f) (next >>= g) c :=
  advance_bind (f := fun _ => f c.head) (g := fun _ => g c.head) rfl hl h

theorem next_of {f g : Lexeme → Tree α}
    (h : c.head.token.isBrace = false → TakesAt m m' k A S (f c.head) (g c.head) c.tail)
    (hbrace : c.head.token.isBrace → TakesAt m m' 0 False S (f c.head) (g c.head) c.tail)
    : TakesAt m m' k A S (next >>= f) (next >>= g) c := by
  cases hl : c.head.token.isBrace with
  | false => exact .next_bind hl (h hl)
  | true =>
    intro hclosed
    obtain ⟨us, hpast, hus⟩ := hbrace hl hclosed.tail
    exact ⟨_, c.past_tail.trans hpast, fun hS => (hus hS).1.elim⟩

theorem known {x : Macros → Tree α} (h : ∀ m', (∀ name, c.head.token = .ident name → m.lookup name = m'.lookup name) →
    TakesAt m m' k A S (x m) (x m') c) : TakesAt m m' k A S (x m) (x m') c := by
  intro hclosed
  obtain ⟨ts, hpast, hts⟩ := h m (fun _ _ => rfl) hclosed
  refine ⟨ts, hpast, fun hS => ⟨(hts hS).1, (hts hS).2.1, fun hagree => ?_⟩⟩
  obtain ⟨us, hpast', hus⟩ := h m' (hagree c.head hpast.head_mem) hclosed
  cases List.append_cancel_right (hpast.rest.symm.trans hpast'.rest)
  exact (hus hS).2.2 hagree

theorem eat_bind {t : Token} {f g : Bool → Tree α} (ht : t.isBrace = false) (h : ∀ b, Takes m m' k A S (f b) (g b)) :
    TakesAt m m' k A S (eat t >>= f) (eat t >>= g) c := by
  unfold eat
  rw [bind_assoc, bind_assoc]
  refine .peek_bind ?_
  by_cases heq : c.head.token = t
  · rw [if_pos (beq_iff_eq.mpr heq), bind_assoc, bind_assoc]
    exact .advance_bind heq ht (h true _)
  · rw [if_neg (by simpa using heq)]
    exact h false c

theorem eat_close {f g : Bool → Tree α} (hyes : Takes m m' k A S (f true) (g true))
    (hno : TakesAt m m' (k + 1) A S (f false) (g false) c)
    : TakesAt m m' (k + 1) A S (eat (.punct .rBrace) >>= f) (eat (.punct .rBrace) >>= g) c := by
  unfold eat
  rw [bind_assoc, bind_assoc]
  refine .peek_bind ?_
  by_cases heq : c.head.token = .punct .rBrace
  · rw [if_pos (beq_iff_eq.mpr heq), bind_assoc, bind_assoc]
    exact .advance_close heq (hyes _)
  · rw [if_neg (by simpa using heq)]
    exact hno

theorem halt_bind {f : Unit → Tree α} {y : Tree α} (h : Takes m m 0 False S (f ()) (f ())) :
    TakesAt m m' k A S (modify Cursor.halt >>= f) y c := by
  intro hclosed
  obtain ⟨us, hpast, hus⟩ := h _ (hclosed.past c.past_halt)
  exact ⟨_, c.past_halt.trans hpast, fun hS => (hus hS).1.elim⟩

theorem stop_bind {e : Error} {f : Error → Tree α} {y : Tree α} (h : Takes m m 0 False S (f e) (f e)) :
    TakesAt m m' k A S (stop e >>= f) y c :=
  halt_bind (f := fun _ => f e) h

theorem attempt_bind {P : List Lexeme → Prop} {κ : β → γ} {x y : Read β} {f g : Except Error β → Tree α} {n : Nat}
    (hx : Read.TakesAt m m' True P κ x y c) (hP : ∀ ts us, P ts → Matched n us → Matched k (ts ++ us))
    (hok : ∀ b ts, P ts → Takes m m' n A S (f (.ok b)) (g (.ok b)))
    (herror : ∀ e, Takes m m 0 False S (f (.error e)) (f (.error e)))
    : TakesAt m m' k A S (attempt x >>= f) (attempt y >>= g) c := by
  cases hrun : x c with
  | ok b c' =>
    have heq {x : Read β} {f : Except Error β → Tree α} (hrun : x c = .ok b c') :
        (attempt x >>= f) c = f (.ok b) c' := by
      rw [bind_apply, attempt, hrun]
    obtain ⟨ts, hpast, hts, hsame⟩ := hx.ok b c' hrun
    exact .behind hpast (heq hrun) (fun hagree => heq (hsame trivial hagree)) (fun us => hP ts us hts) (hok b ts hts c')
  | error e c' =>
    have heq : (attempt x >>= f) c = f (.error e) c'.halt := by
      rw [bind_apply, attempt, hrun]
    intro hclosed
    have hpast : c.Past c.rest c'.halt := ⟨(List.append_nil _).symm, hx.error e c' hrun⟩
    obtain ⟨us, hpast', hus⟩ := herror e _ (hclosed.past hpast)
    rw [heq]
    exact ⟨_, hpast.trans hpast', fun hS => (hus hS).1.elim⟩

theorem attempt_braceless {κ : β → γ} {x y : Read β} {f g : Except Error β → Tree α}
    (hx : Read.TakesAt m m' True (Each (!·.isBrace)) κ x y c) (hok : ∀ b, Takes m m' k A S (f (.ok b)) (g (.ok b)))
    (herror : ∀ e, Takes m m 0 False S (f (.error e)) (f (.error e)))
    : TakesAt m m' k A S (attempt x >>= f) (attempt y >>= g) c :=
  attempt_bind hx (fun _ _ hts hus => (matched_of_each hts).append hus) (fun b _ _ => hok b) herror

theorem expect_bind {t : Token} {f g : Except Error Lexeme → Tree α} (ht : t.isBrace = false)
    (hok : ∀ l, Takes m m' k A S (f (.ok l)) (g (.ok l)))
    (herror : ∀ e, Takes m m 0 False S (f (.error e)) (f (.error e)))
    : TakesAt m m' k A S (expect t >>= f) (expect t >>= g) c :=
  attempt_braceless (Read.takes_expect (by simp [ht]) c) hok herror

theorem expect_brace {t : Token} {f g : Except Error Lexeme → Tree α} {k' : Nat} (ht : t ≠ .eof)
    (hshift : ∀ l us, l.token = t → Matched k' us → Matched k (l :: us))
    (hok : ∀ l, Takes m m' k' A S (f (.ok l)) (g (.ok l)))
    (herror : ∀ e, Takes m m 0 False S (f (.error e)) (f (.error e)))
    : TakesAt m m' k A S (expect t >>= f) (expect t >>= g) c := by
  refine .of_closed fun hclosed => ?_
  have hx : Read.TakesAt m m' True (fun ts => ∃ l, ts = [l] ∧ l.token = t) id (Read.expect t) (Read.expect t) c := by
    rw [← bind_pure (Read.expect t)]
    refine .expect_bind fun heq => .self ⟨c.head, ?_, heq⟩
    rw [hclosed.take_one (heq ▸ ht), List.append_nil]
  refine attempt_bind hx ?_ (fun l _ _ => hok l) herror
  rintro ts us ⟨l, rfl, hl⟩ hus
  exact hshift l us hl hus

theorem expect_open {f g : Except Error Lexeme → Tree α} (hok : ∀ l, Takes m m' (k + 1) A S (f (.ok l)) (g (.ok l)))
    (herror : ∀ e, Takes m m 0 False S (f (.error e)) (f (.error e)))
    : TakesAt m m' k A S (expect (.punct .lBrace) >>= f) (expect (.punct .lBrace) >>= g) c :=
  expect_brace (by simp) (fun _ _ hl hus => hus.opened hl) hok herror

theorem expect_close {f g : Except Error Lexeme → Tree α} (hok : ∀ l, Takes m m' k A S (f (.ok l)) (g (.ok l)))
    (herror : ∀ e, Takes m m 0 False S (f (.error e)) (f (.error e)))
    : TakesAt m m' (k + 1) A S (expect (.punct .rBrace) >>= f) (expect (.punct .rBrace) >>= g) c :=
  expect_brace (by simp) (fun _ _ hl hus => hus.closed hl) hok herror

theorem expect_end {t : Token} {f : Except Error Lexeme → Tree α} (ht : t ≠ .eof) (hrest : c.rest = [])
    (herror : ∀ e, Takes m m 0 False S (f (.error e)) (f (.error e)))
    : TakesAt m m k A S (expect t >>= f) (expect t >>= f) c := by
  refine .of_closed fun hclosed => ?_
  have hx : Read.TakesAt m m True (fun _ => False) id (Read.expect t) (Read.expect t) c := by
    rw [← bind_pure (Read.expect t)]
    refine .expect_bind fun heq => (ht ?_).elim
    rw [← heq, Cursor.head, hrest]
    exact hclosed
  exact attempt_bind (n := k) hx (fun _ _ hfalse => hfalse.elim) (fun _ _ hfalse => hfalse.elim) herror

theorem string_bind {f g : Option (List UInt8) → Tree α}
    (hsome : ∀ bytes, Takes m m' k A S (f (some bytes)) (g (some bytes)))
    (hnone : TakesAt m m' k A S (f none) (g none) c)
    (hend : ∀ c', c'.rest = [] → TakesAt m m 0 False S (f none) (f none) c')
    : TakesAt m m' k A S (string? m >>= f) (string? m' >>= g) c := by
  have heq {macros : Macros} {f : Option (List UInt8) → Tree α} {found : Option (List UInt8)} {c' : Cursor}
      (hrun : Source.string? macros c = .ok found c') : (string? macros >>= f) c = f found c' := by
    rw [bind_apply, string?, bind_apply, attempt, hrun]
    rfl
  cases hrun : Source.string? m c with
  | ok found c' =>
    obtain ⟨ts, hpast, hts, -⟩ := (takes_string? m c).ok found c' hrun
    have hsame (hagree : Agree m m' (ts ++ [c'.head])) := heq (f := g) (string?_of_agree hrun hpast hagree)
    cases found with
    | some bytes =>
      exact .behind hpast (heq hrun) hsame
        (fun us => (matched_of_each hts.plain.braceless).append) (hsome bytes c')
    | none =>
      cases of_string? hrun
      cases List.self_eq_append_left.mp hpast.rest
      exact .behind (.refl c) (heq hrun) hsame (fun us => id) hnone
  | error e c' =>
    have heq : (string? m >>= f) c = f none c'.halt := by
      rw [bind_apply, string?, bind_apply, attempt, hrun]
      rfl
    intro hclosed
    have hpast : c.Past c.rest c'.halt := ⟨(List.append_nil _).symm, (takes_string? m c).error e c' hrun⟩
    obtain ⟨us, hpast', hus⟩ := hend _ rfl (hclosed.past hpast)
    rw [heq]
    exact ⟨_, hpast.trans hpast', fun hS => (hus hS).1.elim⟩

end TakesAt

theorem sound_joined {op : Operator} {span : Span} {left right : Expr} (h : (joined op span left right).isSound) :
    left.isSound ∧ right.isSound := by
  unfold joined at h
  split at h
  case h_4 => cases h
  all_goals exact Bool.and_eq_true_iff.mp h

mutual

theorem takes_expression : (fuel : Nat) → Uniform 0 True (·.isSound) (expression · fuel)
  | 0 => fun _ => .fail nofun
  | fuel + 1 => by
    intro c m m'
    unfold expression
    refine .bind (takes_assignment fuel c) fun left c => ?_
    exact (takes_commaRest fuel left c).mono fun h => ⟨trivial, h⟩

theorem takes_commaRest : (fuel : Nat) → (left : Expr) → Uniform 0 left.isSound (·.isSound) (commaRest · fuel left)
  | 0, _ => fun _ => .fail nofun
  | fuel + 1, left => by
    intro c m m'
    unfold commaRest
    refine .eat_bind rfl fun more c => ?_
    split
    next =>
      refine .bind (takes_assignment fuel c) fun right c => (takes_commaRest fuel _ c).mono ?_
      simp [Expr.isSound]
    next => exact .pure id

theorem takes_assignment : (fuel : Nat) → Uniform 0 True (·.isSound) (assignment · fuel)
  | 0 => fun _ => .fail nofun
  | fuel + 1 => by
    intro c m m'
    unfold assignment
    refine .bind (takes_ternary fuel c) fun left c => .peek_bind ?_
    split
    next heq =>
      refine .advance_bind heq rfl (.bind (takes_assignment fuel _) fun right c => .pure ?_)
      simp [Expr.isSound]
    next heq =>
      refine .advance_bind heq rfl (.bind (takes_assignment fuel _) fun right c => .pure ?_)
      simp [Expr.isSound]
    next => exact .pure fun h => ⟨trivial, h⟩

theorem takes_ternary : (fuel : Nat) → Uniform 0 True (·.isSound) (ternary · fuel)
  | 0 => fun _ => .fail nofun
  | fuel + 1 => by
    intro c m m'
    unfold ternary
    refine .bind (takes_binary fuel 1 c) fun cond c => .peek_bind (.eat_bind rfl fun more c => ?_)
    split
    next =>
      refine .bind (takes_expression fuel c) fun yes c => .expect_bind rfl (fun l c => ?_) fun e c => ?_
      · refine .bind (takes_ternary fuel c) fun no c => .pure ?_
        simp +contextual [Expr.isSound]
      · exact .pure (by simp [Expr.isSound])
    next => exact .pure fun h => ⟨trivial, h⟩

theorem takes_binary : (fuel least : Nat) → Uniform 0 True (·.isSound) (binary · fuel least)
  | 0, _ => fun _ => .fail nofun
  | fuel + 1, least => by
    intro c m m'
    unfold binary
    refine .bind (takes_unary fuel c) fun left c => ?_
    exact (takes_binaryRest fuel least left c).mono fun h => ⟨trivial, h⟩

theorem takes_binaryRest : (fuel least : Nat) → (left : Expr) →
    Uniform 0 left.isSound (·.isSound) (binaryRest · fuel least left)
  | 0, _, _ => fun _ => .fail nofun
  | fuel + 1, least, left => by
    intro c m m'
    unfold binaryRest
    refine .peek_bind ?_
    split
    next op heq =>
      split
      next prec _ =>
        split
        next =>
          refine .advance_bind heq rfl (.bind (takes_binary fuel _ _) fun right c => ?_)
          exact (takes_binaryRest fuel least _ c).mono sound_joined
        next => exact .pure id
      next => exact .pure id
    next => exact .pure id

theorem takes_unary : (fuel : Nat) → Uniform 0 True (·.isSound) (unary · fuel)
  | 0 => fun _ => .fail nofun
  | fuel + 1 => by
    intro c m m'
    unfold unary
    refine .peek_bind ?_
    split
    next heq =>
      exact .advance_bind heq rfl (.bind (takes_unary fuel _) fun e c => .pure fun h => ⟨trivial, h⟩)
    next heq =>
      exact .advance_bind heq rfl (.bind (takes_unary fuel _) fun e c => .pure fun h => ⟨trivial, h⟩)
    next op _ _ heq =>
      split
      next => exact .stop_bind fun c => .fail nofun
      next u hu =>
        refine .advance_bind heq rfl (.peek_bind ?_)
        split
        next hn => exact .advance_bind hn rfl (.pure fun _ => trivial)
        next => exact .bind (takes_unary fuel _) fun e c => .pure fun h => ⟨trivial, h⟩
    next => exact takes_postfixed fuel c

theorem takes_postfixed : (fuel : Nat) → Uniform 0 True (·.isSound) (postfixed · fuel)
  | 0 => fun _ => .fail nofun
  | fuel + 1 => by
    intro c m m'
    unfold postfixed
    refine .bind (takes_primary fuel c) fun e c => ?_
    exact (takes_postfixRest fuel e c).mono fun h => ⟨trivial, h⟩

theorem takes_postfixRest : (fuel : Nat) → (e : Expr) → Uniform 0 e.isSound (·.isSound) (postfixRest · fuel e)
  | 0, _ => fun _ => .fail nofun
  | fuel + 1, e => by
    intro c m m'
    unfold postfixRest
    refine .peek_bind ?_
    split
    next heq =>
      refine .advance_bind heq rfl (.bind (takes_expression fuel _) fun sub c => ?_)
      refine .expect_bind rfl (fun l c => ?_) fun e c => .fail nofun
      refine (takes_postfixRest fuel _ c).mono ?_
      simp [Expr.isSound]
    next heq => exact .advance_bind heq rfl (takes_postfixRest fuel _ _)
    next heq => exact .advance_bind heq rfl (takes_postfixRest fuel _ _)
    next => exact .pure id

theorem takes_primary : (fuel : Nat) → Uniform 0 True (·.isSound) (primary · fuel)
  | 0 => fun _ => .fail nofun
  | fuel + 1 => by
    intro c m m'
    refine .known (x := fun m => primary m (fuel + 1)) fun m' hname => ?_
    change TakesAt m m' _ _ _ (string? m >>= _) (string? m' >>= _) c
    refine .string_bind (fun bytes c => .pure fun _ => trivial) (.next_of ?_ ?_) ?_
    · intro _
      cases heq : c.head.token with
      | int n => exact .pure fun _ => trivial
      | punct p =>
        cases p with
        | lParen =>
          refine .bind (takes_expression fuel _) fun e c => ?_
          exact .expect_bind rfl (fun l c => .pure fun h => ⟨trivial, h⟩) fun e c => .fail nofun
        | _ => exact .stop_bind fun c => .fail nofun
      | ident name =>
        refine .eat_bind rfl fun called c => ?_
        split
        next =>
          refine .eat_bind rfl fun done c => ?_
          split
          next => exact .pure fun _ => trivial
          next => exact .bind (takes_arguments fuel c) fun args c => .pure fun h => ⟨trivial, h⟩
        next =>
          rw [← hname name heq]
          split
          next => exact .pure fun _ => trivial
          next => exact .pure fun _ => trivial
      | op | str | word | eof => exact .stop_bind fun c => .fail nofun
    · intro hbrace
      generalize c.head.token = t at hbrace ⊢
      cases t with
      | punct p =>
        cases p with
        | lBrace | rBrace => exact .stop_bind fun c => .fail nofun
        | _ => cases hbrace
      | _ => cases hbrace
    · refine fun c' hrest => .of_closed fun hclosed => ?_
      have heof : c'.head.token = .eof := by
        rw [Cursor.head, hrest]
        exact hclosed
      refine .next_bind (by rw [heof]; rfl) ?_
      simp only [heof]
      exact .stop_bind fun c => .fail nofun

theorem takes_arguments : (fuel : Nat) → Uniform 0 True (Expr.areSound ·) (arguments · fuel)
  | 0 => fun _ => .fail nofun
  | fuel + 1 => by
    intro c m m'
    unfold arguments
    refine .bind (takes_assignment fuel c) fun arg c => .eat_bind rfl fun done c => ?_
    split
    next => exact .pure (by simp [Expr.areSound])
    next =>
      refine .expect_bind rfl (fun l c => ?_) fun e c => .pure (by simp [Expr.areSound, Expr.isSound])
      refine .bind (takes_arguments fuel c) fun args c => .pure ?_
      simp [Expr.areSound]

end

theorem takes_elementsRest {rest : Macros → Tree (List Element)}
    (hrest : Uniform 1 True (fun xs => xs.all (·.value.isSound)) rest) (opened : Span) (found : List Element)
    : Uniform 1 (True ∧ found.all (·.value.isSound)) (fun xs => xs.all (·.value.isSound)) fun m => do
        if ← eat (.punct .comma) then
          return found ++ (← rest m)
        match ← expect (.punct .rBrace) with
        | .ok _ => return found
        | .error e => return found ++ [{ opened := opened, value := .missing e }] := by
  intro c m m'
  refine .eat_bind rfl fun more c => ?_
  split
  next =>
    refine .last (hrest c) fun xs h => ?_
    rw [List.all_append, Bool.and_eq_true] at h
    exact ⟨⟨trivial, h.1⟩, h.2⟩
  next =>
    refine .expect_close (fun l c => .pure fun h => ⟨trivial, h⟩) fun e c => .fail ?_
    simp [Expr.isSound]

mutual

theorem takes_elementList : (fuel : Nat) → Uniform 0 True (fun xs => xs.all (·.value.isSound)) (elementList · fuel)
  | 0 => fun _ => .fail nofun
  | fuel + 1 => by
    intro c m m'
    unfold elementList
    exact .expect_open (fun l c => takes_elements fuel l.span c) fun e c => .fail nofun

theorem takes_elements : (fuel : Nat) → (opened : Span) →
    Uniform 1 True (fun xs => xs.all (·.value.isSound)) (elements · fuel opened)
  | 0, _ => fun _ => .fail nofun
  | fuel + 1, opened => by
    intro c m m'
    unfold elements
    have hrest := takes_elementsRest (takes_elements fuel opened) opened
    refine .eat_close (fun c => .pure fun _ => trivial) (.peek_bind ?_)
    split
    next => exact .bind (takes_elementList fuel c) fun found c => hrest found c
    next =>
      refine .bind (takes_assignment fuel c) fun value c => ?_
      rw [pure_bind]
      exact (hrest _ c).mono fun h => by simpa using h

end

theorem takesAt_elementList_end {m : Macros} (fuel : Nat) {c : Cursor} (hrest : c.rest = []) :
    TakesAt m m 0 False (fun xs => xs.all (·.value.isSound)) (elementList m fuel) (elementList m fuel) c := by
  cases fuel with
  | zero => exact .fail nofun
  | succ fuel =>
    unfold elementList
    exact .expect_end (by simp) hrest fun e c => .fail nofun

theorem takes_declared (fuel : Nat) (d : Declarator) : Uniform 0 True (·.isSound) (declared · fuel d) := by
  intro c m m'
  unfold declared
  refine .peek_bind ?_
  split
  next => exact .halt_bind fun c => .fail nofun
  next =>
    refine .eat_bind rfl fun assigned c => ?_
    split
    next => exact .pure fun _ => trivial
    next =>
      split
      next => exact .last (takes_assignment fuel c) fun value h => ⟨trivial, h⟩
      next =>
        refine .string_bind (fun bytes c => .pure fun _ => trivial) ?_ ?_
        · exact .last (takes_elementList fuel c) fun xs h => ⟨trivial, h⟩
        · intro c' hrest
          exact .mono (.last_of (A := True) (takesAt_elementList_end fuel hrest) fun xs h => ⟨trivial, h⟩)
            And.right

theorem takes_declaredList : (fuel : Nat) → Uniform 0 True (fun ds => ds.all (·.isSound)) (declaredList · fuel)
  | 0 => fun _ => .fail nofun
  | fuel + 1 => by
    intro c m m'
    unfold declaredList
    refine .attempt_braceless ((takes_declarator c).mono fun _ => Each.braceless) (fun d c => ?_) fun e c =>
      .fail nofun
    refine .bind (takes_declared fuel d c) fun item c => .eat_bind rfl fun more c => ?_
    split
    next => exact .last (takes_declaredList fuel c) fun items h => by simpa using h
    next =>
      refine .expect_bind rfl (fun l c => .pure fun h => by simpa using h) fun e c => .fail ?_
      simp [Declared.isSound]

theorem takes_declaration (fuel : Nat) (base : Base) : Uniform 0 True (·.isSound) (declaration · fuel base) :=
  fun c => .last (takes_declaredList fuel c) fun _ h => ⟨trivial, h⟩

theorem takes_closed (fuel : Nat) {t : Token} (ht : t.isBrace = false) :
    Uniform 0 True (·.isSound) (closed · fuel t) := by
  intro c m m'
  unfold closed
  refine .bind (takes_expression fuel c) fun e c => ?_
  exact .expect_bind ht (fun l c => .pure fun h => ⟨trivial, h⟩) fun e c => .fail nofun

theorem takes_ended (s : Stmt) : Uniform 0 s.isSound (·.isSound) fun _ => ended s := by
  intro c m m'
  unfold ended
  exact .expect_bind rfl (fun l c => .pure id) fun e c => .fail nofun

theorem takes_condition (fuel : Nat) : Uniform 0 True (fun r => r.2.1.isSound ∧ r.2.2 = none) (condition · fuel) := by
  intro c m m'
  unfold condition
  refine .expect_bind rfl (fun l c => ?_) fun e c => .fail fun h => Bool.false_ne_true h.1
  refine .bind (takes_expression fuel c) fun cond c => ?_
  exact .expect_bind rfl (fun l c => .pure fun h => ⟨trivial, h.1⟩) fun e c => .fail fun h => by cases h.2

theorem takes_forInit (fuel : Nat) : Uniform 0 True (·.isSound) (forInit · fuel) := by
  intro c m m'
  unfold forInit
  have hclosed : Uniform 0 True (·.isSound) fun m => do return Stmt.expr (← closed m fuel (.punct .semicolon)) :=
    fun c => .last (takes_closed fuel rfl c) fun e h => ⟨trivial, h⟩
  refine .peek_bind ?_
  split
  next heq => exact .advance_bind heq rfl (.pure fun _ => trivial)
  next w heq =>
    split
    next base _ => exact .advance_bind heq rfl (takes_declaration fuel base _)
    next => exact hclosed c
  next => exact hclosed c

theorem takes_forCond (fuel : Nat) : Uniform 0 True (fun r => r.1.all (·.isSound) ∧ r.2 = none) (forCond · fuel) := by
  intro c m m'
  unfold forCond
  refine .eat_bind rfl fun none c => ?_
  split
  next => exact .pure fun _ => trivial
  next =>
    refine .bind (takes_expression fuel c) fun cond c => ?_
    exact .expect_bind rfl (fun l c => .pure fun h => ⟨trivial, h.1⟩) fun e c => .fail fun h => by cases h.2

theorem takes_forStep (fuel : Nat) : Uniform 0 True (fun step => step.all (·.isSound)) (forStep · fuel) := by
  intro c m m'
  unfold forStep
  refine .eat_bind rfl fun none c => ?_
  split
  next => exact .pure fun _ => trivial
  next => exact .last (takes_closed fuel rfl c) fun e h => ⟨trivial, h⟩

theorem takes_caseLabel (span : Span) : Uniform 0 True (·.isSound) (caseLabel · span) := by
  intro c m m'
  unfold caseLabel
  exact .attempt_braceless
    (.bind ((takes_constant c).mono fun _ h => h.operands.plain.braceless) fun n n' _ c =>
      .same (Read.takes_expect rfl c) fun l c => .pure Joins.nil (rfl : () = ()) And.right)
    (fun n c => .pure fun _ => trivial) fun e c => .fail nofun

theorem takes_defaultLabel (span : Span) : Uniform 0 True (·.isSound) fun _ => defaultLabel span := by
  intro c m m'
  unfold defaultLabel
  exact .expect_bind rfl (fun l c => .pure fun _ => trivial) fun e c => .fail nofun

theorem takes_returned (fuel : Nat) (span : Span) : Uniform 0 True (·.isSound) (returned · fuel span) := by
  intro c m m'
  unfold returned
  refine .eat_bind rfl fun none c => ?_
  split
  next => exact .pure fun _ => trivial
  next => exact .bind (takes_expression fuel c) fun e c => (takes_ended _ c).mono fun h => ⟨trivial, h⟩

mutual

theorem takes_statement : (fuel : Nat) → Uniform 0 True (·.isSound) (statement · fuel)
  | 0 => fun _ => .fail nofun
  | fuel + 1 => by
    intro c m m'
    unfold statement
    refine .peek_bind ?_
    split
    next => exact takes_block fuel c
    next heq => exact .advance_bind heq rfl (.pure fun _ => trivial)
    next w heq =>
      split
      next base _ => exact .advance_bind heq rfl (takes_declaration fuel base _)
      next => exact takes_keyword fuel w _ c (by rw [heq]; rfl)
    next => exact .last (takes_closed fuel rfl c) fun e h => ⟨trivial, h⟩

theorem takes_keyword : (fuel : Nat) → (w : Word) → (l : Lexeme) → (c : Cursor) → c.head.token.isBrace = false →
    {m m' : Macros} → TakesAt m m' 0 True (·.isSound) (keyword m fuel w l) (keyword m' fuel w l) c
  | 0, _, _, _, _ => .fail nofun
  | fuel + 1, w, l, c, hc => by
    unfold keyword
    split
    next => exact .stop_bind fun c => .fail nofun
    next =>
      refine .advance_bind rfl hc ?_
      split
      next =>
        refine .bind (takes_condition fuel _) fun ⟨opened, cond, err⟩ c => ?_
        refine .mono (.bind_of (A := cond.isSound) (takes_body fuel err c) fun yes c => .eat_bind rfl fun more c => ?_)
          fun h => ⟨trivial, h⟩
        split
        next => exact .last (takes_statement fuel c) fun no h => by simpa [Stmt.isSound, and_assoc] using h
        next => exact .pure fun h => by simpa [Stmt.isSound] using h
      next =>
        refine .bind (takes_condition fuel _) fun ⟨opened, cond, err⟩ c => ?_
        refine .mono (.last_of (A := cond.isSound) (takes_body fuel err c) fun body h => ?_) fun h => ⟨trivial, h⟩
        simpa [Stmt.isSound] using h
      next =>
        refine .bind (takes_statement fuel _) fun inner c => .expect_bind rfl (fun l c => ?_) fun e c => .fail ?_
        · refine .bind (takes_condition fuel c) fun ⟨opened, cond, err⟩ c => ?_
          cases err with
          | some e => exact .fail nofun
          | none =>
            refine (takes_ended _ c).mono fun h => ?_
            simpa [Stmt.isSound] using h
        · simp [Stmt.isSound, Expr.isSound]
      next =>
        refine .expect_bind rfl (fun p c => ?_) fun e c => .fail nofun
        refine .bind (takes_forInit fuel c) fun init c => ?_
        refine .bind (takes_forCond fuel c) fun ⟨cond, err⟩ c => ?_
        cases err with
        | some e => exact .fail (by simp [Stmt.isSound, Expr.isSound])
        | none =>
          refine .bind (takes_forStep fuel c) fun step c => .last (takes_statement fuel c) fun body h => ?_
          simpa [Stmt.isSound, and_assoc] using h
      next =>
        refine .bind (takes_condition fuel _) fun ⟨opened, cond, err⟩ c => ?_
        refine .mono (.last_of (A := cond.isSound) (takes_body fuel err c) fun body h => ?_) fun h => ⟨trivial, h⟩
        simpa [Stmt.isSound] using h
      next => exact takes_caseLabel l.span _
      next => exact takes_defaultLabel l.span _
      next => exact (takes_ended _ _).mono fun _ => trivial
      next => exact (takes_ended _ _).mono fun _ => trivial
      next => exact takes_returned fuel l.span _

theorem takes_body : (fuel : Nat) → (err : Option Error) → Uniform 0 (err = none) (·.isSound) (body · fuel err)
  | 0, _ => fun _ => .fail nofun
  | _ + 1, some _ => fun _ => .fail nofun
  | fuel + 1, none => fun c => (takes_statement fuel c).mono fun _ => rfl

theorem takes_block : (fuel : Nat) → Uniform 0 True (·.isSound) (block · fuel)
  | 0 => fun _ => .fail nofun
  | fuel + 1 => by
    intro c m m'
    unfold block
    refine .expect_open (fun l c => ?_) fun e c => .fail nofun
    exact .last (takes_statements fuel c) fun ss h => ⟨trivial, h⟩

theorem takes_statements : (fuel : Nat) → Uniform 1 True (Stmt.areSound ·) (statements · fuel)
  | 0 => fun _ => .fail nofun
  | fuel + 1 => by
    intro c m m'
    unfold statements
    refine .peek_bind ?_
    split
    next heq => exact .advance_close heq (.pure fun _ => trivial)
    next => exact .fail nofun
    next =>
      refine .bind (takes_statement fuel c) fun s c => .last (takes_statements fuel c) fun ss h => ?_
      simpa [Stmt.areSound] using h

end

end Grammar

end Handheld.Source
