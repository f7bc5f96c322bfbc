import Reckon.Compile
import Reckon.Proofs.Compiling
import Mathlib.Logic.Relation

/-!
# Workspaces that grow

Whatever is done to a workspace without removing names or dropping frames comes down to three
changes: a cell is filled with another value, a free name is bound to a new cell, or time passes. So
cells and bindings stay in order, and a constant is never made into a variable.

As long as no constants are written to and no bound names are bound anew, a workspace only grows:
all that formulas have been compiled against is still there. A name that has its cell in the
innermost frame, as a constant with the right value, is not affected by being bound to this constant
once more, so that compiling formulas leaves a workspace alone in which one has been compiled.

## Main definitions

* `Workspace.Change` — one of the three changes.
* `Workspace.IsTidy` — every name that is bound has a cell of its own, which goes by that name.
* `Workspace.Extends` — a workspace has grown out of another one.
* `Workspace.Holds` — a name is bound to a constant in the innermost frame.

## Main statements

* `Workspace.IsTidy.changes` — workspaces stay tidy.
* `Workspace.localVariable?_of_changes` — a name that is bound in the innermost frame keeps its
  cell.
* `Workspace.Extends.bindNew`, `Workspace.Extends.write` — what makes a workspace grow.
* `Workspace.holdsNamed_prepared`, `Workspace.HoldsNamed.prepared_eq` — named constants are bound
  once.
-/

namespace Reckon

variable {α : Type}

/-! ### Looking names up -/

namespace Scope

variable (s : Scope α) (name n : String) (v : Variable)

/-- The variable that a name is bound to in the frames around the innermost one. -/
def outerVariable? : Option Variable := s.outer.findSome? (·.variableTable.find? name)

theorem findVariable?_eq_or :
    s.findVariable? name = (s.localVariable? name).or (s.outerVariable? name) := by
  rw [findVariable?, frames, List.findSome?_cons, localVariable?, outerVariable?]
  cases s.inner.variableTable.find? name <;> rfl

theorem findVariable?_of_local {s : Scope α} {name : String} {v : Variable}
    (h : s.localVariable? name = some v) : s.findVariable? name = some v := by
  rw [findVariable?_eq_or, h, Option.some_or]

theorem localVariable?_bindVariable :
    (s.bindVariable name v).localVariable? n = if n = name then some v else s.localVariable? n :=
  Table.find?_insert ..

theorem findVariable?_bindVariable :
    (s.bindVariable name v).findVariable? n = if n = name then some v else s.findVariable? n := by
  rw [findVariable?_eq_or, localVariable?_bindVariable, findVariable?_eq_or]
  split <;> rfl

end Scope

/-! ### Stores -/

namespace Store

@[simp] theorem size_put (s : Store α) (v : Variable) (c : Cell α) :
    (s.put v c).cells.size = s.cells.size := by
  simp [put]

@[simp] theorem size_add (s : Store α) (name : String) (c : Cell α) :
    (s.add name c).2.cells.size = s.cells.size + 1 := by
  simp [add]

variable [Arithmetic α] {s s' s'' : Store α} {v w : Variable}

theorem lt_of_isConstant (h : s.isConstant v) : v.index < s.cells.size := by
  by_contra hlt
  have hnone : s.cells[v.index]? = none := Array.getElem?_eq_none (by omega)
  simp [isConstant, cell, hnone] at h

theorem cell_add_of_lt (name : String) (c : Cell α) (h : v.index < s.cells.size) :
    (s.add name c).2.cell v = s.cell v := by
  simp [add, cell, Array.getElem?_push, Nat.ne_of_lt h]

theorem cell_congr (h : v.index = w.index) : s.cell v = s.cell w := by
  rw [cell, cell, h]

/-- What a cell holds may be put into it once more. -/
theorem put_cell (s : Store α) (v : Variable) : s.put v (s.cell v) = s := by
  rcases s with ⟨cells, time⟩
  by_cases h : v.index < cells.size
  · simp [put, cell, h, Array.setIfInBounds]
  · simp [put, h, Array.setIfInBounds]

/-- A constant stays one if it is one in what is put into its cell. -/
theorem isConstant_put {c : Cell α} (hc : s.isConstant v → c.constant) (hw : s.isConstant w) :
    (s.put v c).isConstant w := by
  by_cases hvw : v.index = w.index
  · have hv : s.isConstant v := by rwa [isConstant, cell_congr hvw]
    rw [isConstant, cell_put c hvw (lt_of_isConstant hv)]
    exact hc hv
  · rw [isConstant, cell_put_of_ne c hvw]
    exact hw

/-- A later store has all the cells, and no constants among them but the same ones. -/
structure Keeps (s s' : Store α) : Prop where
  size_le : s.cells.size ≤ s'.cells.size
  isConstant_eq {v : Variable} (h : v.index < s.cells.size) : s'.isConstant v = s.isConstant v
  cell_eq {v : Variable} (h : s.isConstant v) : s'.cell v = s.cell v

theorem Keeps.refl (s : Store α) : s.Keeps s := ⟨Nat.le_refl _, fun _ => rfl, fun _ => rfl⟩

theorem Keeps.trans (h : s.Keeps s') (h' : s'.Keeps s'') : s.Keeps s'' where
  size_le := h.size_le.trans h'.size_le
  isConstant_eq hv := (h'.isConstant_eq (hv.trans_le h.size_le)).trans (h.isConstant_eq hv)
  cell_eq {v} hv := by
    have hv' : s'.isConstant v := (h.isConstant_eq (lt_of_isConstant hv)).trans hv
    exact (h'.cell_eq hv').trans (h.cell_eq hv)

theorem Keeps.add (s : Store α) (name : String) (c : Cell α) : s.Keeps (s.add name c).2 where
  size_le := by simp
  isConstant_eq hv := congrArg Cell.constant (cell_add_of_lt name c hv)
  cell_eq hv := cell_add_of_lt name c (lt_of_isConstant hv)

/-- Writing to a variable that is no constant leaves all constants alone. -/
theorem Keeps.write (x : α) (h : s.isConstant v = false) : s.Keeps (s.write v x) where
  size_le := by simp [Store.write]
  isConstant_eq {w} hw := by
    by_cases hvw : v.index = w.index
    · rw [isConstant, Store.write, cell_put _ hvw (hvw ▸ hw), isConstant, cell_congr hvw]
      rfl
    · rw [isConstant, Store.write, cell_put_of_ne _ hvw]
      rfl
  cell_eq {w} hw := by
    refine cell_put_of_ne _ fun hvw => ?_
    rw [isConstant, cell_congr hvw] at h
    rw [isConstant, h] at hw
    cases hw

end Store

/-! ### Workspaces -/

namespace Workspace

section Bind

variable {w : Workspace α} {name : String} {v : Variable}

/-- Binds a name to a new cell. -/
def bindNew (w : Workspace α) (name : String) (c : Cell α) : Workspace α :=
  { store := (w.store.add name c).2, scope := w.scope.bindVariable name (w.store.add name c).1 }

/-- The variable that refers to the new cell. -/
def fresh (w : Workspace α) (name : String) : Variable := ⟨name, w.store.cells.size⟩

theorem createConstant_of_local (x : α) (h : w.scope.localVariable? name = some v) :
    w.createConstant name x = (v, w.freeze v x) := by
  rw [createConstant, h]
  rfl

theorem createConstant_of_free (x : α) (h : w.scope.localVariable? name = none) :
    w.createConstant name x = (w.fresh name, w.bindNew name ⟨x, true⟩) := by
  rw [createConstant, h]
  rfl

theorem findVariable?_bindNew (w : Workspace α) (name : String) (c : Cell α) (n : String) :
    (w.bindNew name c).scope.findVariable? n =
      if n = name then some (w.fresh name) else w.scope.findVariable? n :=
  w.scope.findVariable?_bindVariable name n _

/-- Every name that is bound has a cell of its own, which goes by that name. -/
structure IsTidy (w : Workspace α) : Prop where
  name_eq {n : String} {v : Variable} (h : w.scope.findVariable? n = some v) : v.name = n
  index_lt {n : String} {v : Variable} (h : w.scope.findVariable? n = some v) :
    v.index < w.store.cells.size
  name_inj {n n' : String} {v v' : Variable} (h : w.scope.findVariable? n = some v)
    (h' : w.scope.findVariable? n' = some v') (hindex : v.index = v'.index) : n = n'

theorem IsTidy.bindNew (h : w.IsTidy) (name : String) (c : Cell α) :
    (w.bindNew name c).IsTidy := by
  have hsize : (w.bindNew name c).store.cells.size = w.store.cells.size + 1 :=
    Store.size_add w.store name c
  refine ⟨fun {n v} hv => ?_, fun {n v} hv => ?_, fun {n n' v v'} hv hv' hindex => ?_⟩
  · rw [findVariable?_bindNew] at hv
    split at hv
    · next hn =>
      obtain rfl := Option.some.inj hv
      exact hn.symm
    · exact h.name_eq hv
  · rw [findVariable?_bindNew] at hv
    rw [hsize]
    split at hv
    · obtain rfl := Option.some.inj hv
      exact Nat.lt_succ_self _
    · exact Nat.lt_succ_of_lt (h.index_lt hv)
  · -- The new cell comes after all those that names have been bound to.
    rw [findVariable?_bindNew] at hv hv'
    split at hv <;> split at hv'
    · next hn hn' => rw [hn, hn']
    · obtain rfl := Option.some.inj hv
      exact absurd (h.index_lt hv') (by rw [← hindex]; exact Nat.lt_irrefl _)
    · obtain rfl := Option.some.inj hv'
      exact absurd (h.index_lt hv) (by rw [hindex]; exact Nat.lt_irrefl _)
    · exact h.name_inj hv hv' hindex

end Bind

variable [Arithmetic α] {w w' w'' : Workspace α} {name : String} {v : Variable}

theorem createVariable_of_local (h : w.scope.localVariable? name = some v) :
    w.createVariable name = (v, w) := by
  rw [createVariable, h]

theorem createVariable_of_free (h : w.scope.localVariable? name = none) :
    w.createVariable name = (w.fresh name, w.bindNew name ⟨Arithmetic.zero, false⟩) := by
  rw [createVariable, h]
  rfl

/-- Gives a name a value, and binds it to a new variable if it is free in the innermost frame. -/
def assign (w : Workspace α) (name : String) (x : α) : Workspace α :=
  (w.createVariable name).2.write (w.createVariable name).1 x

/-- The same workspace at another time. -/
def atTime (w : Workspace α) (t : α) : Workspace α := { w with store := { w.store with time := t } }

/-- What can happen to a workspace: a cell that exists is filled anew, but a constant stays one; a
name that is free in the innermost frame is bound to a new cell; or time passes. -/
inductive Change : Workspace α → Workspace α → Prop
  | put (w : Workspace α) (v : Variable) (c : Cell α) (h : w.store.isConstant v → c.constant) :
      Change w { w with store := w.store.put v c }
  | bindNew {w : Workspace α} {name : String} (c : Cell α)
      (h : w.scope.localVariable? name = none) : Change w (w.bindNew name c)
  | time (w : Workspace α) (t : α) : Change w (w.atTime t)

/-- A workspace after any number of changes. -/
abbrev Changes (w w' : Workspace α) : Prop := Relation.ReflTransGen Change w w'

theorem changes_write (w : Workspace α) (v : Variable) (x : α) : Changes w (w.write v x) :=
  .single (.put w v ⟨x, w.store.isConstant v⟩ id)

theorem changes_freeze (w : Workspace α) (v : Variable) (x : α) : Changes w (w.freeze v x) :=
  .single (.put w v ⟨x, true⟩ fun _ => rfl)

theorem changes_createConstant (w : Workspace α) (name : String) (x : α) :
    Changes w (w.createConstant name x).2 := by
  cases h : w.scope.localVariable? name with
  | some v =>
    rw [createConstant_of_local x h]
    exact changes_freeze w v x
  | none =>
    rw [createConstant_of_free x h]
    exact .single (.bindNew _ h)

theorem changes_createVariable (w : Workspace α) (name : String) :
    Changes w (w.createVariable name).2 := by
  cases h : w.scope.localVariable? name with
  | some v => rw [createVariable_of_local h]
  | none =>
    rw [createVariable_of_free h]
    exact .single (.bindNew _ h)

theorem changes_assign (w : Workspace α) (name : String) (x : α) : Changes w (w.assign name x) :=
  (changes_createVariable w name).trans (changes_write _ _ _)

theorem IsTidy.change (h : w.IsTidy) (hw : Change w w') : w'.IsTidy := by
  cases hw with
  | put v c => exact ⟨h.name_eq, fun hv => by simpa using h.index_lt hv, h.name_inj⟩
  | bindNew c => exact h.bindNew _ c
  | time t => exact ⟨h.name_eq, h.index_lt, h.name_inj⟩

/-- Workspaces stay tidy. -/
theorem IsTidy.changes (h : w.IsTidy) (hw : Changes w w') : w'.IsTidy := by
  induction hw with
  | refl => exact h
  | tail _ hw ih => exact ih.change hw

/-- A name that is bound in the innermost frame keeps its cell. -/
theorem localVariable?_of_changes {n : String} (h : Changes w w')
    (hv : w.scope.localVariable? n = some v) : w'.scope.localVariable? n = some v := by
  induction h with
  | refl => exact hv
  | tail _ hstep ih =>
    cases hstep with
    | put => exact ih
    | @bindNew name c hfree =>
      rw [bindNew, Scope.localVariable?_bindVariable, if_neg, ih]
      rintro rfl
      rw [hfree] at ih
      cases ih
    | time => exact ih

/-- The frames around the innermost one do not change. -/
theorem outer_of_changes (h : Changes w w') : w'.scope.outer = w.scope.outer := by
  induction h with
  | refl => rfl
  | tail _ hstep ih =>
    cases hstep with
    | put => exact ih
    | bindNew => exact ih
    | time => exact ih

/-! ### Workspaces that grow -/

/-- A workspace has grown out of `w`: what was bound still is, and constants are as they were. -/
structure Extends (w w' : Workspace α) : Prop where
  localVariable? {n : String} {v : Variable} (h : w.scope.localVariable? n = some v) :
    w'.scope.localVariable? n = some v
  findVariable? {n : String} {v : Variable} (h : w.scope.findVariable? n = some v) :
    w'.scope.findVariable? n = some v
  findFunction? {n : String} {f : Function α} (h : w.scope.findFunction? n = some f) :
    w'.scope.findFunction? n = some f
  keeps : w.store.Keeps w'.store

theorem Extends.refl (w : Workspace α) : w.Extends w := ⟨id, id, id, .refl _⟩

theorem Extends.trans (h : w.Extends w') (h' : w'.Extends w'') : w.Extends w'' where
  localVariable? hv := h'.localVariable? (h.localVariable? hv)
  findVariable? hv := h'.findVariable? (h.findVariable? hv)
  findFunction? hf := h'.findFunction? (h.findFunction? hf)
  keeps := h.keeps.trans h'.keeps

/-- A name may be bound to a new cell if it is not bound anywhere. -/
theorem Extends.bindNew (c : Cell α) (h : w.scope.findVariable? name = none) :
    w.Extends (w.bindNew name c) := by
  have hlocal : w.scope.localVariable? name = none := by
    rw [Scope.findVariable?_eq_or, Option.or_eq_none_iff] at h
    exact h.1
  refine ⟨fun {n v} hv => ?_, fun {n v} hv => ?_, id, .add w.store name c⟩
  · rw [Workspace.bindNew, Scope.localVariable?_bindVariable, if_neg, hv]
    rintro rfl
    rw [hlocal] at hv
    cases hv
  · rw [findVariable?_bindNew, if_neg, hv]
    rintro rfl
    rw [h] at hv
    cases hv

theorem Extends.write (x : α) (h : w.store.isConstant v = false) : w.Extends (w.write v x) :=
  ⟨id, id, id, .write x h⟩

theorem Extends.atTime (w : Workspace α) (t : α) : w.Extends (w.atTime t) :=
  ⟨id, id, id, ⟨Nat.le_refl _, fun _ => rfl, fun _ => rfl⟩⟩

/-! ### Named constants -/

/-- A name is bound to the constant `x` in the innermost frame. -/
def Holds (w : Workspace α) (name : String) (x : α) : Prop :=
  ∃ v, w.scope.localVariable? name = some v ∧ w.store.cell v = ⟨x, true⟩

theorem Holds.extends {x : α} (h : w.Holds name x) (hw : w.Extends w') : w'.Holds name x := by
  obtain ⟨v, hv, hcell⟩ := h
  have hconst : w.store.isConstant v := congrArg Cell.constant hcell
  exact ⟨v, hw.localVariable? hv, (hw.keeps.cell_eq hconst).trans hcell⟩

/-- A name that is bound to a constant may be bound to it once more. -/
theorem Holds.createConstant_eq {x : α} (h : w.Holds name x) :
    (w.createConstant name x).2 = w := by
  obtain ⟨v, hv, hcell⟩ := h
  rw [createConstant_of_local x hv, freeze, Store.freeze, ← hcell, Store.put_cell]

theorem holds_createConstant (hw : w.IsTidy) (name : String) (x : α) :
    (w.createConstant name x).2.Holds name x := by
  cases h : w.scope.localVariable? name with
  | some v =>
    rw [createConstant_of_local x h]
    have hlt : v.index < w.store.cells.size := hw.index_lt (Scope.findVariable?_of_local h)
    exact ⟨v, h, Store.cell_put _ rfl hlt⟩
  | none =>
    rw [createConstant_of_free x h]
    refine ⟨w.fresh name, ?_, ?_⟩
    · rw [bindNew, Scope.localVariable?_bindVariable, if_pos rfl]
      rfl
    · simp [bindNew, fresh, Store.add, Store.cell]

/-- Binding another name to a constant changes neither the cell of a name nor what is in it. -/
theorem createConstant_of_ne {n : String} (hw : w.IsTidy)
    (hv : w.scope.findVariable? n = some v) (hne : n ≠ name) (x : α) :
    (w.createConstant name x).2.scope.findVariable? n = some v ∧
      (w.createConstant name x).2.store.cell v = w.store.cell v := by
  cases hlocal : w.scope.localVariable? name with
  | some u =>
    rw [createConstant_of_local x hlocal]
    refine ⟨hv, Store.cell_put_of_ne _ fun hindex => hne ?_⟩
    exact hw.name_inj hv (Scope.findVariable?_of_local hlocal) hindex.symm
  | none =>
    rw [createConstant_of_free x hlocal, findVariable?_bindNew, if_neg hne]
    exact ⟨hv, Store.cell_add_of_lt name _ (hw.index_lt hv)⟩

/-- So a name that is bound to a constant stays bound to it. -/
theorem Holds.createConstant {name' : String} {x : α} (h : w.Holds name x) (hw : w.IsTidy)
    (hne : name ≠ name') (y : α) : (w.createConstant name' y).2.Holds name x := by
  obtain ⟨v, hv, hcell⟩ := h
  refine ⟨v, localVariable?_of_changes (changes_createConstant w name' y) hv, ?_⟩
  exact (createConstant_of_ne hw (Scope.findVariable?_of_local hv) hne y).2.trans hcell

section Named

variable [Numeral α] {settings : Settings}

omit [Arithmetic α] in
theorem bindNamed_eq (w : Workspace α) : w.bindNamed =
    ((w.createConstant "tau" Numeral.tau).2.createConstant "e" Numeral.e).2 := rfl

theorem changes_prepared (w : Workspace α) (settings : Settings) :
    Changes w (w.prepared settings) := by
  unfold prepared
  split
  · rw [bindNamed_eq]
    exact (changes_createConstant w _ _).trans (changes_createConstant _ _ _)
  · exact .refl

/-- The names that are bound before a formula is read are bound to their constants. -/
def HoldsNamed (w : Workspace α) (settings : Settings) : Prop :=
  settings.namedConstants → w.Holds "tau" Numeral.tau ∧ w.Holds "e" Numeral.e

theorem HoldsNamed.extends (h : w.HoldsNamed settings) (hw : w.Extends w') :
    w'.HoldsNamed settings :=
  fun hs => ⟨(h hs).1.extends hw, (h hs).2.extends hw⟩

/-- Preparing a workspace binds the named constants. -/
theorem holdsNamed_prepared (hw : w.IsTidy) (settings : Settings) :
    (w.prepared settings).HoldsNamed settings := by
  intro hs
  have htidy : (w.createConstant "tau" Numeral.tau).2.IsTidy :=
    hw.changes (changes_createConstant w _ _)
  rw [prepared, if_pos hs, bindNamed_eq]
  exact ⟨(holds_createConstant hw _ _).createConstant htidy (by decide) _,
    holds_createConstant htidy _ _⟩

/-- Where the named constants are bound, there is nothing to prepare. -/
theorem HoldsNamed.prepared_eq (h : w.HoldsNamed settings) : w.prepared settings = w := by
  unfold prepared
  split
  · next hs => rw [bindNamed_eq, (h hs).1.createConstant_eq, (h hs).2.createConstant_eq]
  · rfl

end Named

end Workspace

end Reckon
