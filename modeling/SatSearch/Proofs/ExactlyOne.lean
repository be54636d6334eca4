import SatSearch.ExactlyOne
import SatSearch.Proofs.Models

/-!
# Exactly one of several variables, as clauses

Each auxiliary variable of the encoding marks one input.  The clauses hold under an assignment if
and only if some mark is true and every true mark is that of the only true input.  So an assignment
of the variables that existed before extends to the marks if and only if it makes exactly one input
true, and since the marks are fresh, groups of variables can be encoded one after the other.
-/

namespace SatSearch

variable {supply : VariableSupply} {vs : List Variable} {a d e : Assignment}

/-! ## Assignments that agree on what has been handed out -/

instance (supply : VariableSupply) (v : Variable) : Decidable (supply.Used v) :=
  inferInstanceAs (Decidable (v.id < supply.next))

/-- The second assignment extends the first one to variables not handed out yet. -/
def VariableSupply.Agree (supply : VariableSupply) (a e : Assignment) : Prop :=
  ∀ v, supply.Used v → e v = a v

theorem VariableSupply.Used.advance {v : Variable} (h : supply.Used v) (n : Nat) :
    (supply.advance n).Used v :=
  Nat.lt_add_right n h

theorem VariableSupply.Agree.trans {n : Nat} (hfirst : supply.Agree a d)
    (hsecond : (supply.advance n).Agree d e) : supply.Agree a e := by
  intro v hv
  rw [hsecond v (hv.advance n), hfirst v hv]

theorem Clause.holds_congr {c : Clause} (h : ∀ l ∈ c.literals, e l.var = a l.var) :
    c.holds e = c.holds a := by
  unfold Clause.holds
  rw [Bool.eq_iff_iff, List.any_eq_true, List.any_eq_true]
  refine exists_congr fun l => and_congr_right fun hl => ?_
  simp only [Literal.holds, h l hl]

theorem Models.congr {clauses : List Clause} (hmodels : Models clauses a)
    (h : ∀ c ∈ clauses, ∀ l ∈ c.literals, e l.var = a l.var) : Models clauses e := by
  intro c hc
  rw [Clause.holds_congr (h c hc)]
  exact hmodels c hc

theorem Formula.holds_congr {f : Formula} (h : ∀ v, f.contains v = true → e v = a v) :
    f.holds e = f.holds a := by
  rw [Bool.eq_iff_iff, Formula.holds_iff, Formula.holds_iff]
  refine forall_congr' fun c => forall_congr' fun hc => ?_
  rw [Clause.holds_congr fun l hl => h l.var (f.covered c hc l hl)]

/-! ## Marks -/

/-- The auxiliary variable `x` stands for the choice of `v` among the inputs. -/
def Marks (supply : VariableSupply) (vs : List Variable) (x v : Variable) : Prop :=
  (v, x) ∈ vs.zip (supply.fresh vs.length)

instance (supply : VariableSupply) (vs : List Variable) (x v : Variable) :
    Decidable (Marks supply vs x v) :=
  inferInstanceAs (Decidable ((v, x) ∈ vs.zip (supply.fresh vs.length)))

theorem marks_iff {x v : Variable} :
    Marks supply vs x v ↔ ∃ i, vs[i]? = some v ∧ x.id = supply.next + i := by
  unfold Marks
  rw [List.mem_iff_getElem?]
  refine exists_congr fun i => ?_
  rw [List.getElem?_zip_eq_some]
  refine and_congr_right fun hv => ?_
  have hi : i < vs.length := (List.getElem?_eq_some_iff.mp hv).1
  have hfresh : (supply.fresh vs.length)[i]? = some ⟨supply.next + i⟩ := by
    simp [VariableSupply.fresh, hi]
  rw [hfresh, Option.some.injEq]
  constructor
  · rintro rfl
    rfl
  · intro hid
    exact (Variable.eq_of_id hid).symm

namespace Marks

variable {x y v w : Variable}

theorem mem (h : Marks supply vs x v) : v ∈ vs := by
  obtain ⟨i, hi, _⟩ := marks_iff.mp h
  exact List.mem_of_getElem? hi

theorem not_used (h : Marks supply vs x v) : ¬supply.Used x := by
  obtain ⟨i, _, hid⟩ := marks_iff.mp h
  unfold VariableSupply.Used
  omega

theorem used (h : Marks supply vs x v) : (supply.advance vs.length).Used x := by
  obtain ⟨i, hi, hid⟩ := marks_iff.mp h
  have hlt : i < vs.length := (List.getElem?_eq_some_iff.mp hi).1
  change x.id < supply.next + vs.length
  omega

theorem input_eq (hv : Marks supply vs x v) (hw : Marks supply vs x w) : v = w := by
  obtain ⟨i, hi, hid⟩ := marks_iff.mp hv
  obtain ⟨j, hj, hjd⟩ := marks_iff.mp hw
  have hij : i = j := by omega
  rw [hij, hj] at hi
  exact (Option.some.inj hi).symm

/-- Without repetitions an input has one mark. -/
theorem mark_eq (hnodup : vs.Nodup) (hx : Marks supply vs x v) (hy : Marks supply vs y v) :
    x = y := by
  obtain ⟨i, hi, hid⟩ := marks_iff.mp hx
  obtain ⟨j, hj, hjd⟩ := marks_iff.mp hy
  have hlt : i < vs.length := (List.getElem?_eq_some_iff.mp hi).1
  have hij : i = j := (List.getElem?_inj hlt hnodup).mp (hi.trans hj.symm)
  apply Variable.eq_of_id
  omega

end Marks

theorem exists_marks (supply : VariableSupply) {v : Variable} (hv : v ∈ vs) :
    ∃ x, Marks supply vs x v := by
  obtain ⟨i, hi⟩ := List.mem_iff_getElem?.mp hv
  exact ⟨⟨supply.next + i⟩, marks_iff.mpr ⟨i, hi, rfl⟩⟩

theorem mem_fresh_iff_marks {x : Variable} :
    x ∈ supply.fresh vs.length ↔ ∃ v, Marks supply vs x v := by
  rw [VariableSupply.mem_fresh]
  constructor
  · intro hx
    have hi : x.id - supply.next < vs.length := by omega
    exact ⟨vs[x.id - supply.next], marks_iff.mpr ⟨_, List.getElem?_eq_getElem hi, by omega⟩⟩
  · rintro ⟨v, hv⟩
    exact ⟨Nat.not_lt.mp hv.not_used, hv.used⟩

/-! ## The clauses -/

/-- The clause that says that some mark is true. -/
def someMark (supply : VariableSupply) (vs : List Variable) : Clause :=
  ⟨(supply.fresh vs.length).map Variable.positive⟩

/-- The clause by which the mark `x` of `v` settles the input `w`. -/
def settles (x v w : Variable) : Clause :=
  ⟨[x.negative, ⟨w, w = v⟩]⟩

theorem mem_exactlyOneOf {c : Clause} :
    c ∈ (exactlyOneOf supply vs).1 ↔ c = someMark supply vs ∨
      ∃ x v w, Marks supply vs x v ∧ w ∈ vs ∧ c = settles x v w := by
  unfold exactlyOneOf
  simp only [List.mem_cons, List.mem_flatMap, Prod.exists]
  refine or_congr_right ?_
  rw [exists_comm]
  refine exists_congr fun x => exists_congr fun v => ?_
  simp only [choiceClauses, List.mem_map, settles, eq_comm, exists_and_left]
  exact Iff.rfl

theorem mem_someMark {l : Literal} :
    l ∈ (someMark supply vs).literals ↔ ∃ x v, Marks supply vs x v ∧ l = x.positive := by
  unfold someMark
  rw [List.mem_map]
  simp only [mem_fresh_iff_marks]
  constructor
  · rintro ⟨x, ⟨v, hv⟩, rfl⟩
    exact ⟨x, v, hv, rfl⟩
  · rintro ⟨x, v, hv, rfl⟩
    exact ⟨x, ⟨v, hv⟩, rfl⟩

theorem holds_someMark_iff :
    (someMark supply vs).holds e = true ↔ ∃ x v, Marks supply vs x v ∧ e x = true := by
  rw [Clause.holds_iff]
  constructor
  · rintro ⟨l, hl, hholds⟩
    obtain ⟨x, v, hv, rfl⟩ := mem_someMark.mp hl
    exact ⟨x, v, hv, by simpa [Literal.holds, Variable.positive] using hholds⟩
  · rintro ⟨x, v, hv, hx⟩
    exact ⟨x.positive, mem_someMark.mpr ⟨x, v, hv, rfl⟩,
      by simpa [Literal.holds, Variable.positive] using hx⟩

theorem holds_settles_iff {x v w : Variable} :
    (settles x v w).holds e = true ↔ (e x = true → e w = decide (w = v)) := by
  cases hx : e x <;> simp [settles, Clause.holds, Literal.holds, Variable.negative, hx]

/-- The clauses hold if and only if some mark is true and every true mark settles all inputs. -/
theorem models_exactlyOneOf_iff :
    Models (exactlyOneOf supply vs).1 e ↔ (∃ x v, Marks supply vs x v ∧ e x = true) ∧
      ∀ x v, Marks supply vs x v → e x = true → ∀ w ∈ vs, e w = decide (w = v) := by
  constructor
  · intro h
    refine ⟨holds_someMark_iff.mp (h _ (mem_exactlyOneOf.mpr (Or.inl rfl))), ?_⟩
    intro x v hv hx w hw
    have hsettles := h _ (mem_exactlyOneOf.mpr (Or.inr ⟨x, v, w, hv, hw, rfl⟩))
    exact holds_settles_iff.mp hsettles hx
  · rintro ⟨hsome, hall⟩ c hc
    rcases mem_exactlyOneOf.mp hc with rfl | ⟨x, v, w, hv, hw, rfl⟩
    · exact holds_someMark_iff.mpr hsome
    · exact holds_settles_iff.mpr fun hx => hall x v hv hx w hw

theorem used_of_mem_exactlyOneOf (hvs : ∀ v ∈ vs, supply.Used v) {c : Clause}
    (hc : c ∈ (exactlyOneOf supply vs).1) {l : Literal} (hl : l ∈ c.literals) :
    (supply.advance vs.length).Used l.var := by
  rcases mem_exactlyOneOf.mp hc with rfl | ⟨x, v, w, hv, hw, rfl⟩
  · obtain ⟨x, v, hv, rfl⟩ := mem_someMark.mp hl
    exact hv.used
  · simp only [settles, List.mem_cons, List.not_mem_nil, or_false] at hl
    rcases hl with rfl | rfl
    · exact hv.used
    · exact (hvs w hw).advance _

/-! ## Extending an assignment to the marks -/

/-- The assignment with the marks of `v` true and all other marks false. -/
def marking (supply : VariableSupply) (vs : List Variable) (a : Assignment) (v : Variable) :
    Assignment :=
  fun x => if supply.Used x then a x else decide (Marks supply vs x v)

theorem agree_marking (a : Assignment) (v : Variable) :
    supply.Agree a (marking supply vs a v) := by
  intro x hx
  simp [marking, hx]

theorem models_marking (hvs : ∀ v ∈ vs, supply.Used v) {v : Variable} (hv : v ∈ vs)
    (hsole : ∀ w ∈ vs, a w = decide (w = v)) :
    Models (exactlyOneOf supply vs).1 (marking supply vs a v) := by
  have hmark : ∀ x w, Marks supply vs x w →
      marking supply vs a v x = decide (Marks supply vs x v) := by
    intro x w hw
    simp [marking, hw.not_used]
  rw [models_exactlyOneOf_iff]
  constructor
  · obtain ⟨x, hx⟩ := exists_marks supply hv
    refine ⟨x, v, hx, ?_⟩
    rw [hmark x v hx]
    exact decide_eq_true hx
  · intro x w hw hx u hu
    rw [hmark x w hw, decide_eq_true_eq] at hx
    rw [agree_marking a v u (hvs u hu), hsole u hu, hw.input_eq hx]

/-- Under a model of the clauses exactly one input is true. -/
theorem existsUnique_of_models (h : Models (exactlyOneOf supply vs).1 e) :
    ∃! v, v ∈ vs ∧ e v = true := by
  obtain ⟨⟨x, v, hv, hx⟩, hall⟩ := models_exactlyOneOf_iff.mp h
  have hsole := hall x v hv hx
  refine ⟨v, ⟨hv.mem, by simp [hsole v hv.mem]⟩, ?_⟩
  rintro w ⟨hw, htrue⟩
  simpa [hsole w hw] using htrue

/-- Without repetitions a model of the clauses gives each mark the value of its input. -/
theorem mark_eq_input_of_models (hnodup : vs.Nodup) (h : Models (exactlyOneOf supply vs).1 e)
    {x w : Variable} (hw : Marks supply vs x w) : e x = e w := by
  obtain ⟨⟨y, v, hv, hy⟩, hall⟩ := models_exactlyOneOf_iff.mp h
  cases hx : e x with
  | true =>
      have hinput := hall x w hw hx w hw.mem
      simpa using hinput.symm
  | false =>
      have hne : w ≠ v := by
        rintro rfl
        rw [hw.mark_eq hnodup hv, hy] at hx
        contradiction
      have hinput := hall y v hv hy w hw.mem
      simpa [hne] using hinput.symm

theorem agree_of_models (hnodup : vs.Nodup) (hvs : ∀ v ∈ vs, supply.Used v)
    (hagree : supply.Agree d e) (hd : Models (exactlyOneOf supply vs).1 d)
    (he : Models (exactlyOneOf supply vs).1 e) : (supply.advance vs.length).Agree d e := by
  intro x hx
  by_cases hold : supply.Used x
  · exact hagree x hold
  · have hfresh : x ∈ supply.fresh vs.length :=
      VariableSupply.mem_fresh.mpr ⟨Nat.not_lt.mp hold, hx⟩
    obtain ⟨w, hw⟩ := mem_fresh_iff_marks.mp hfresh
    rw [mark_eq_input_of_models hnodup he hw, mark_eq_input_of_models hnodup hd hw,
      hagree w (hvs w hw.mem)]

/-- An assignment extends to a model of the clauses if and only if it makes exactly one input
true. -/
theorem existsUnique_iff_exists_models (hvs : ∀ v ∈ vs, supply.Used v) (a : Assignment) :
    (∃! v, v ∈ vs ∧ a v = true) ↔
      ∃ e, supply.Agree a e ∧ Models (exactlyOneOf supply vs).1 e := by
  constructor
  · rintro ⟨v, ⟨hv, htrue⟩, honly⟩
    refine ⟨marking supply vs a v, agree_marking a v, models_marking hvs hv ?_⟩
    intro w hw
    by_cases heq : w = v
    · simp [heq, htrue]
    · have hfalse : a w = false := by
        rw [← Bool.not_eq_true]
        intro hholds
        exact heq (honly w ⟨hw, hholds⟩)
      simp [heq, hfalse]
  · rintro ⟨e, hagree, hmodels⟩
    obtain ⟨v, ⟨hv, htrue⟩, honly⟩ := existsUnique_of_models hmodels
    refine ⟨v, ⟨hv, by rw [← hagree v (hvs v hv), htrue]⟩, ?_⟩
    rintro w ⟨hw, hholds⟩
    exact honly w ⟨hw, by rw [hagree w (hvs w hw), hholds]⟩

/-! ## Several groups -/

/-- The clauses of several groups of variables, encoded one after the other. -/
def exactlyOneOfEach (supply : VariableSupply) :
    List (List Variable) → List Clause × VariableSupply
  | [] => ([], supply)
  | vs :: groups =>
    let (clauses, next) := exactlyOneOf supply vs
    let (others, last) := exactlyOneOfEach next groups
    (clauses ++ others, last)

theorem models_exactlyOneOfEach_cons {groups : List (List Variable)} :
    Models (exactlyOneOfEach supply (vs :: groups)).1 e ↔
      Models (exactlyOneOf supply vs).1 e ∧
        Models (exactlyOneOfEach (supply.advance vs.length) groups).1 e := by
  simp only [Models, exactlyOneOfEach, List.forall_mem_append]
  exact Iff.rfl

/-- The marks of one group are nothing to the others, so all groups can be extended in turn. -/
theorem forall_existsUnique_iff_exists_models {groups : List (List Variable)}
    (hgroups : ∀ vs ∈ groups, ∀ v ∈ vs, supply.Used v) (a : Assignment) :
    (∀ vs ∈ groups, ∃! v, v ∈ vs ∧ a v = true) ↔
      ∃ e, supply.Agree a e ∧ Models (exactlyOneOfEach supply groups).1 e := by
  induction groups generalizing supply a with
  | nil => simpa [exactlyOneOfEach, Models] using ⟨a, fun _ _ => rfl⟩
  | cons vs groups ih =>
      obtain ⟨hvs, hothers⟩ := List.forall_mem_cons.mp hgroups
      have hlater : ∀ ws ∈ groups, ∀ v ∈ ws, (supply.advance vs.length).Used v :=
        fun ws hws v hv => (hothers ws hws v hv).advance _
      have htransfer : ∀ d, supply.Agree a d → ((∀ ws ∈ groups, ∃! v, v ∈ ws ∧ d v = true) ↔
          ∀ ws ∈ groups, ∃! v, v ∈ ws ∧ a v = true) := by
        intro d hd
        refine forall_congr' fun ws => forall_congr' fun hws => existsUnique_congr fun v => ?_
        exact and_congr_right fun hv => by rw [hd v (hothers ws hws v hv)]
      rw [List.forall_mem_cons]
      constructor
      · rintro ⟨hsole, hrest⟩
        obtain ⟨d, hd, hmodels⟩ := (existsUnique_iff_exists_models hvs a).mp hsole
        obtain ⟨e, he, hmore⟩ := (ih hlater d).mp ((htransfer d hd).mpr hrest)
        refine ⟨e, hd.trans he, models_exactlyOneOfEach_cons.mpr ⟨?_, hmore⟩⟩
        exact hmodels.congr fun c hc l hl => he l.var (used_of_mem_exactlyOneOf hvs hc hl)
      · rintro ⟨e, he, hmodels⟩
        obtain ⟨hfirst, hmore⟩ := models_exactlyOneOfEach_cons.mp hmodels
        refine ⟨(existsUnique_iff_exists_models hvs a).mpr ⟨e, he, hfirst⟩, ?_⟩
        exact (htransfer e he).mp ((ih hlater e).mpr ⟨e, fun _ _ => rfl, hmore⟩)

/-! ## Conservativity -/

/-- The clauses of exactly one of `vs` are a conservative addition to a formula over older
variables: an assignment of these satisfies the formula and makes exactly one of `vs` true if and
only if it extends to the fresh variables so that the formula and the clauses hold.  Without
repetitions there is one way to extend it.  Several groups, overlapping or not, can be added one
after the other. -/
theorem exactlyOneOf_conservative {f : Formula} (hf : ∀ v, f.contains v = true → supply.Used v)
    (hvs : ∀ v ∈ vs, supply.Used v) (a : Assignment) :
    (f.holds a = true ∧ (∃! v, v ∈ vs ∧ a v = true) ↔
      ∃ e, supply.Agree a e ∧ f.holds e = true ∧ Models (exactlyOneOf supply vs).1 e) ∧
    (vs.Nodup → ∀ d e, supply.Agree a d → supply.Agree a e →
      Models (exactlyOneOf supply vs).1 d → Models (exactlyOneOf supply vs).1 e →
      (exactlyOneOf supply vs).2.Agree d e) ∧
    ∀ groups : List (List Variable), (∀ ws ∈ groups, ∀ v ∈ ws, supply.Used v) →
      (f.holds a = true ∧ (∀ ws ∈ groups, ∃! v, v ∈ ws ∧ a v = true) ↔
        ∃ e, supply.Agree a e ∧ f.holds e = true ∧
          Models (exactlyOneOfEach supply groups).1 e) := by
  have hformula : ∀ e, supply.Agree a e → f.holds e = f.holds a :=
    fun e he => Formula.holds_congr fun v hv => he v (hf v hv)
  have hsplit : ∀ clauses, (∃ e, supply.Agree a e ∧ f.holds e = true ∧ Models clauses e) ↔
      f.holds a = true ∧ ∃ e, supply.Agree a e ∧ Models clauses e := by
    intro clauses
    constructor
    · rintro ⟨e, he, hholds, hmodels⟩
      exact ⟨hformula e he ▸ hholds, e, he, hmodels⟩
    · rintro ⟨hholds, e, he, hmodels⟩
      exact ⟨e, he, (hformula e he).trans hholds, hmodels⟩
  refine ⟨?_, ?_, ?_⟩
  · rw [hsplit, existsUnique_iff_exists_models hvs]
  · intro hnodup d e hd he hmodels hother
    have hagree : supply.Agree d e := fun v hv => (he v hv).trans (hd v hv).symm
    exact agree_of_models hnodup hvs hagree hmodels hother
  · intro groups hgroups
    rw [hsplit, forall_existsUnique_iff_exists_models hgroups]

theorem exactlyOneOf_conservative_of_overlapping_groups :
    let supply : VariableSupply := ⟨5⟩
    let f := Formula.ofClauses [⟨[⟨⟨1⟩, true⟩, ⟨⟨4⟩, false⟩]⟩]
    let vs : List Variable := [⟨1⟩, ⟨2⟩, ⟨3⟩]
    let groups : List (List Variable) := [[⟨1⟩, ⟨2⟩], [⟨2⟩, ⟨3⟩, ⟨2⟩]]
    let a : Assignment := fun v => v.id == 2
    (∀ v, f.contains v = true → supply.Used v) ∧ (∀ v ∈ vs, supply.Used v) ∧
      (∀ ws ∈ groups, ∀ v ∈ ws, supply.Used v) ∧ vs.Nodup ∧
      (∃ e, supply.Agree a e ∧ f.holds e = true ∧ Models (exactlyOneOf supply vs).1 e) ∧
      (∀ e, supply.Agree a e → Models (exactlyOneOf supply vs).1 e →
        e ⟨5⟩ = false ∧ e ⟨6⟩ = true ∧ e ⟨7⟩ = false) ∧
      ∃ e, supply.Agree a e ∧ f.holds e = true ∧
        Models (exactlyOneOfEach supply groups).1 e := by
  intro supply f vs groups a
  have hscope : f.scope.variables = #[⟨1⟩, ⟨4⟩] := by decide
  have hf : ∀ v, f.contains v = true → supply.Used v := by
    intro v hv
    change f.scope.contains v = true at hv
    rw [Scope.contains_iff, hscope] at hv
    simp only [List.mem_toArray, List.mem_cons, List.not_mem_nil, or_false] at hv
    rcases hv with rfl | rfl <;> decide
  have hvs : ∀ v ∈ vs, supply.Used v := by decide
  have hgroups : ∀ ws ∈ groups, ∀ v ∈ ws, supply.Used v := by decide
  have hsole : ∀ ws : List Variable, ⟨2⟩ ∈ ws → ∃! v, v ∈ ws ∧ a v = true := by
    intro ws hws
    refine ⟨⟨2⟩, ⟨hws, rfl⟩, ?_⟩
    rintro v ⟨_, hv⟩
    exact Variable.eq_of_id (eq_of_beq hv)
  have htwo : ∀ ws ∈ groups, ⟨2⟩ ∈ ws := by decide
  obtain ⟨hone, hunique, hmany⟩ := exactlyOneOf_conservative hf hvs a
  have hmarking : Models (exactlyOneOf supply vs).1 (marking supply vs a ⟨2⟩) :=
    models_marking hvs (by decide) (by decide)
  refine ⟨hf, hvs, hgroups, by decide, hone.mp ⟨rfl, hsole vs (by decide)⟩, ?_,
    (hmany groups hgroups).mp ⟨rfl, fun ws hws => hsole ws (htwo ws hws)⟩⟩
  intro e he hmodels
  have hsame := hunique (by decide) _ e (agree_marking a ⟨2⟩) he hmarking hmodels
  exact ⟨hsame ⟨5⟩ (by decide), hsame ⟨6⟩ (by decide), hsame ⟨7⟩ (by decide)⟩

end SatSearch
