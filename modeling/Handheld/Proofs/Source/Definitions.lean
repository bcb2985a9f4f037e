import Handheld.Proofs.Source.Braces

/-!
How the definitions of functions are read: the walk over the top level, which skips what is no definition.
-/
namespace Handheld.Source

open Read

def TopLevel.isSound : TopLevel → Bool
  | missing _ => false
  | function _ _ _ body => body.isSound

def Blocks (macros : Macros) (_ c : Cursor) (r : Stmt × Cursor) : Prop :=
  ∃ fuel, r = Grammar.block macros fuel c

/-- How the top level is walked. A body behind the header at `c` is read as `reads c` says. -/
inductive Walks (macros : Macros) (reads : Cursor → Cursor → Stmt × Cursor → Prop) : Cursor → List TopLevel → Prop where
  | done {c : Cursor} (h : c.head.token = .eof) : Walks macros reads c []
  | directive {c : Cursor} {fs : List TopLevel} (h : c.head.token = .punct .hash)
    (hrest : Walks macros reads (c.tail.behindLine c.head.span.line) fs)
    : Walks macros reads c fs
  | semicolon {c : Cursor} {fs : List TopLevel} (h : c.head.token = .punct .semicolon)
    (hrest : Walks macros reads c.tail fs) :
    Walks macros reads c fs
  | global {c c1 : Cursor} {fs : List TopLevel} {w : Word} {base : Base} {d : Declarator} {rest : List Lexeme}
    (h : c.head.token = .word w) (hbase : w.base? = some base) (hd : declarator macros c.tail = .ok d c1)
    (hvar : ¬(d.dims = [] ∧ c1.head.token = .punct .lParen)) (hskip : skipToSemicolon 0 c1.rest = some rest)
    (hrest : Walks macros reads { c1 with rest := rest } fs)
    : Walks macros reads c fs
  | prototype {c c1 c2 : Cursor} {fs : List TopLevel} {w : Word} {base : Base} {d : Declarator} {ps : List Param}
    (h : c.head.token = .word w) (hbase : w.base? = some base) (hd : declarator macros c.tail = .ok d c1)
    (hdims : d.dims = []) (hopen : c1.head.token = .punct .lParen) (hps : params macros c1 = .ok ps c2)
    (hend : c2.head.token = .punct .semicolon) (hrest : Walks macros reads c2.tail fs)
    : Walks macros reads c fs
  | definition {c c1 c2 : Cursor} {fs : List TopLevel} {w : Word} {base : Base} {d : Declarator} {ps : List Param}
    {r : Stmt × Cursor} (h : c.head.token = .word w) (hbase : w.base? = some base) (hd : declarator macros c.tail = .ok d c1)
    (hdims : d.dims = []) (hopen : c1.head.token = .punct .lParen) (hps : params macros c1 = .ok ps c2)
    (hbody : c2.head.token ≠ .punct .semicolon) (hread : reads c c2 r) (hrest : Walks macros reads r.2 fs)
    : Walks macros reads c (.function d.name (d.ty base) ps r.1 :: fs)

section Inversion

variable {macros : Macros} {c c' : Cursor}

theorem attempt_restOfLine (line : Nat) (c : Cursor) : (Grammar.attempt (restOfLine line) c).2 = c.behindLine line := by
  have hrun : restOfLine line c
      = (peek >>= fun _ => pure (c.rest.takeWhile (·.span.line == line))) (c.behindLine line) := by
    rw [Cursor.behindLine, ← Text.drop_length_takeWhile]
    rfl
  rw [Grammar.attempt, hrun]
  cases hpeek : peek (c.behindLine line) with
  | ok l c' =>
    obtain ⟨-, rfl⟩ := of_peek hpeek
    simp only [Bind.bind, EStateM.bind, hpeek]
    rfl
  | error e c' =>
    obtain ⟨rfl, hhalt⟩ := halt_of_peek hpeek
    simp only [Bind.bind, EStateM.bind, hpeek]
    exact hhalt

theorem of_skipStatement (h : skipStatement c = .ok () c') :
    ∃ rest, skipToSemicolon 0 c.rest = some rest ∧ c' = { c with rest := rest } := by
  have hrest := of_get_bind h
  generalize skipToSemicolon 0 c.rest = found at hrest ⊢
  cases found with
  | some rest =>
    cases hrest
    exact ⟨rest, rfl, rfl⟩
  | none =>
    obtain ⟨_, _, hset, hrest⟩ := bind_eq_ok_iff.mp hrest
    obtain ⟨_, _, hpeek, hrest⟩ := bind_eq_ok_iff.mp hrest
    cases hrest

theorem of_topDeclaration {found : Option (String × Ty × List Param)}
    (h : Grammar.topDeclaration macros c = .ok found c')
    : ∃ w base d c1, c.head.token = .word w ∧ w.base? = some base ∧ declarator macros c.tail = .ok d c1
      ∧ (¬(d.dims = [] ∧ c1.head.token = .punct .lParen) ∧ found = none
          ∧ (∃ rest, skipToSemicolon 0 c1.rest = some rest ∧ c' = { c1 with rest := rest })
        ∨ d.dims = [] ∧ c1.head.token = .punct .lParen ∧ ∃ ps c2, params macros c1 = .ok ps c2
          ∧ (c2.head.token = .punct .semicolon ∧ found = none ∧ c' = c2.tail
            ∨ c2.head.token ≠ .punct .semicolon ∧ found = some (d.name, d.ty base, ps) ∧ c' = c2)) := by
  obtain ⟨base, c1, hbase, hrest⟩ := bind_eq_ok_iff.mp h
  rcases of_base? hbase with ⟨w, b, hw, hb, rfl, rfl⟩ | rfl
  · obtain ⟨d, c1, hd, hrest⟩ := bind_eq_ok_iff.mp hrest
    refine ⟨w, b, d, c1, hw, hb, hd, ?_⟩
    replace hrest := of_peek_bind hrest
    split at hrest
    next hvar =>
      obtain ⟨_, c2, hskip, hrest⟩ := bind_eq_ok_iff.mp hrest
      cases hrest
      refine .inl ⟨?_, rfl, of_skipStatement hskip⟩
      rintro ⟨hdims, hopen⟩
      simp [hdims, hopen] at hvar
    next hfunction =>
      simp only [Bool.or_eq_true, Bool.not_eq_true', bne_iff_ne, ne_eq, not_or, Bool.not_eq_false,
        List.isEmpty_iff, Decidable.not_not] at hfunction
      obtain ⟨ps, c2, hps, hrest⟩ := bind_eq_ok_iff.mp hrest
      obtain ⟨ended, c3, heat, hrest⟩ := bind_eq_ok_iff.mp hrest
      refine .inr ⟨hfunction.1, hfunction.2, ps, c2, hps, ?_⟩
      rcases of_eat heat with ⟨rfl, hend, rfl⟩ | ⟨rfl, hend, rfl⟩
      · cases hrest
        exact .inl ⟨hend, rfl, rfl⟩
      · cases hrest
        exact .inr ⟨hend, rfl, rfl⟩
  · obtain ⟨_, _, _, hrest⟩ := bind_eq_ok_iff.mp hrest
    cases hrest

theorem walks_of_declaration {fuel : Nat} {x : Grammar.Tree (List TopLevel)}
    (hx : x = do
      match ← Grammar.attempt (Grammar.topDeclaration macros) with
      | .error e => return [.missing e]
      | .ok none => Grammar.topLevel macros fuel
      | .ok (some (name, ret, ps)) =>
        let body ← Grammar.block macros fuel
        return .function name ret ps body :: (← Grammar.topLevel macros fuel))
    (ih : ∀ c, (∀ e, .missing e ∉ (Grammar.topLevel macros fuel c).1) →
      Walks macros (Blocks macros) c (Grammar.topLevel macros fuel c).1)
    (h : ∀ e, .missing e ∉ (x c).1)
    : Walks macros (Blocks macros) c (x c).1 := by
  rw [hx, Grammar.bind_apply, Grammar.attempt] at h ⊢
  cases hrun : Grammar.topDeclaration macros c with
  | error e c' =>
    simp only [hrun] at h
    exact (h e List.mem_cons_self).elim
  | ok found c' =>
    simp only [hrun] at h ⊢
    obtain ⟨w, base, d, c1, hw, hbase, hd, hfound⟩ := of_topDeclaration hrun
    rcases hfound with ⟨hvar, rfl, rest, hskip, rfl⟩ | ⟨hdims, hopen, ps, c2, hps, ⟨hend, rfl, rfl⟩ | ⟨hbody, rfl, rfl⟩⟩
    · exact .global hw hbase hd hvar hskip (ih _ h)
    · exact .prototype hw hbase hd hdims hopen hps hend (ih _ h)
    · exact .definition hw hbase hd hdims hopen hps hbody ⟨fuel, rfl⟩
        (ih _ fun e he => h e (List.mem_cons_of_mem _ he))

theorem walks_of_topLevel {fuel : Nat} (h : ∀ e, .missing e ∉ (Grammar.topLevel macros fuel c).1) :
    Walks macros (Blocks macros) c (Grammar.topLevel macros fuel c).1 := by
  induction fuel generalizing c with
  | zero => exact (h _ List.mem_cons_self).elim
  | succ fuel ih =>
    unfold Grammar.topLevel at h ⊢
    rw [Grammar.bind_apply, Grammar.peek_apply] at h ⊢
    cases htoken : c.head.token with
    | eof =>
      exact .done htoken
    | punct p =>
      cases p with
      | hash =>
        simp only [htoken] at h ⊢
        refine .directive htoken ?_
        rw [← attempt_restOfLine]
        exact ih h
      | semicolon =>
        simp only [htoken] at h ⊢
        exact .semicolon htoken (ih h)
      | _ =>
        simp only [htoken] at h ⊢
        exact walks_of_declaration rfl (fun _ => ih) h
    | _ =>
      simp only [htoken] at h ⊢
      exact walks_of_declaration rfl (fun _ => ih) h

end Inversion

section Names

variable {macros : Macros} {c c' : Cursor} {N : String → Prop}

theorem past_of_skipToSemicolon {depth : Int} {rest : List Lexeme} (h : skipToSemicolon depth c.rest = some rest) :
    ∃ ts, c.Past ts { c with rest := rest } := by
  have hrest : ∃ ts, c.rest = ts ++ rest := by
    generalize c.rest = ls at h
    fun_induction skipToSemicolon depth ls with
    | case1 => cases h
    | case4 _ l =>
      cases h
      exact ⟨[l], rfl⟩
    | case2 _ l _ _ ih | case3 _ l _ _ _ ih | case5 _ l _ _ _ _ ih =>
      obtain ⟨ts, rfl⟩ := ih h
      exact ⟨l :: ts, rfl⟩
  obtain ⟨ts, hts⟩ := hrest
  exact ⟨ts, hts, rfl⟩

theorem Walks.named {fs : List TopLevel} (h : Walks macros (Blocks macros) c fs) (hclosed : c.Closed) (hnamed : c.Named N) :
    ∀ name ret params body, .function name ret params body ∈ fs → N name := by
  induction h with
  | done =>
    intro name ret params body hf
    cases hf
  | @directive c _ _ _ ih =>
    have hpast := c.tail.past_behindLine c.head.span.line
    exact ih (hclosed.tail.past hpast) (hnamed.tail.past hpast)
  | semicolon _ _ ih => exact ih hclosed.tail hnamed.tail
  | global _ _ hd _ hskip _ ih =>
    obtain ⟨ts, hpast, -⟩ := takes_declarator.past hd
    obtain ⟨us, hpast'⟩ := past_of_skipToSemicolon hskip
    exact ih (hclosed.tail.past (hpast.trans hpast')) (hnamed.tail.past (hpast.trans hpast'))
  | prototype _ _ hd _ _ hps _ _ ih =>
    obtain ⟨ts, hpast, -⟩ := past_header hd hps
    exact ih (hclosed.tail.past hpast).tail (hnamed.tail.past hpast).tail
  | definition _ _ hd _ _ hps _ hread _ ih =>
    obtain ⟨fuel, rfl⟩ := hread
    obtain ⟨ts, hpast, -⟩ := past_header hd hps
    have hclosed2 := hclosed.tail.past hpast
    obtain ⟨us, hpast', -⟩ := (Grammar.takes_block fuel).past macros hclosed2
    have hrest := ih (hclosed2.past hpast') ((hnamed.tail.past hpast).past hpast')
    intro name ret params body hf
    rcases List.mem_cons.mp hf with hf | hf
    · cases hf
      exact hnamed.tail.declarator hd
    · exact hrest name ret params body hf

end Names

end Handheld.Source
