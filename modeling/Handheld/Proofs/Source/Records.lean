import Handheld.Proofs.Source.Contents

/-!
What the survey records of functions: whether they are defined, and the type of their first declaration.
-/
namespace Handheld.Source

def Globals.definitions (g : Globals) (x : String) : Nat :=
  if (g.functions.lookup x).any (·.defined) then 1 else 0

def Globals.ret? (g : Globals) (x : String) : Option Ty :=
  (g.functions.lookup x).map (·.ret)

def definitionsOf (x : String) (ds : List Declaration) : Nat :=
  ds.countP fun d => d.name == x && d.function.defined

structure Globals.Records (g : Globals) (ds : List Declaration) (g' : Globals) : Prop where
  definitions : ∀ x, g'.definitions x = g.definitions x + definitionsOf x ds
  ret : ∀ x, g'.ret? x = (g.ret? x).or ((ds.find? (·.name == x)).map (·.function.ret))

section Records

variable {g g1 g' : Globals} {ds ds' : List Declaration} {c c' : Cursor}

theorem Globals.Records.of_functions (h : g'.functions = g.functions) : g.Records [] g' where
  definitions x := by
    rw [Globals.definitions, Globals.definitions, h]
    rfl
  ret x := by
    rw [Globals.ret?, Globals.ret?, h, List.find?_nil, Option.map_none, Option.or_none]

theorem Globals.Records.append (h : g.Records ds g1) (h' : g1.Records ds' g') : g.Records (ds ++ ds') g' where
  definitions x := by
    rw [h'.definitions, h.definitions, definitionsOf, definitionsOf, definitionsOf, List.countP_append, Nat.add_assoc]
  ret x := by
    rw [h'.ret, h.ret, List.find?_append, Option.or_assoc]
    cases ds.find? (·.name == x) <;> rfl

theorem Globals.records_of_addFunction {d : Declaration} {span : Span}
    (h : g.addFunction d.name d.function span = .ok g')
    : g.Records [d] g' := by
  obtain ⟨f, rfl, hf⟩ := Globals.addFunction_eq_ok h
  constructor
  · intro x
    simp only [Globals.definitions, definitionsOf, List.countP_cons, List.countP_nil, Table.lookup_insert]
    by_cases hx : x = d.name
    · subst hx
      rcases hf with ⟨hnone, rfl⟩ | ⟨prior, hprior, honce, rfl⟩
      · simp [hnone]
      · cases hdefined : prior.defined <;> cases hdefined' : d.function.defined <;> simp_all
    · simp [hx, Ne.symm hx]
  · intro x
    simp only [Globals.ret?, Table.lookup_insert]
    by_cases hx : x = d.name
    · subst hx
      rcases hf with ⟨hnone, rfl⟩ | ⟨prior, hprior, honce, rfl⟩
      · simp [hnone]
      · simp [hprior]
    · simp [hx, Ne.symm hx]

theorem Declares.records {base : Base} {first : Bool} {found : Option Declaration}
    (h : Declares base first g c found g' c')
    : g.Records found.toList g' := by
  have hglobal {g g' : Globals} {c c' : Cursor} {d : Declarator} {ty : Ty} (h : globalRest g d ty c = .ok g' c') :
      g.Records [] g' := by
    obtain ⟨dims, v, g1, -, hdeclare, ⟨-, rfl⟩ | ⟨init, -, hset⟩⟩ := declare_of_globalRest h
    · exact .of_functions (Globals.declare_eq_ok hdeclare).2.1
    · obtain ⟨_, -, rfl⟩ := Globals.setContents_eq_ok_iff.mp hset
      exact .of_functions (Globals.declare_eq_ok hdeclare).2.1
  induction h with
  | prototype _ _ _ _ _ hadd | definition _ _ _ _ _ _ hadd => exact Globals.records_of_addFunction hadd
  | last _ _ hrest => exact hglobal hrest
  | more _ _ hrest _ _ ih => exact (hglobal hrest).append ih

theorem Surveys.records (h : Surveys g c ds g' c') : g.Records ds g' := by
  induction h with
  | done => exact .of_functions rfl
  | directive _ hd _ ih =>
    rcases of_directive hd with ⟨rfl, -⟩ | ⟨_, _, _, rfl, -⟩
    · exact ih
    · exact ⟨ih.definitions, ih.ret⟩
  | semicolon _ _ ih => exact ih
  | declaration _ _ hd _ ih => exact hd.records.append ih

theorem survey_records {source : String} (h : survey (Cursor.ofSource source) = .ok g) :
    Globals.Records {} (declarations source) g := by
  obtain ⟨c', hsurveys⟩ := surveys_of_survey h
  exact hsurveys.records

end Records

end Handheld.Source
