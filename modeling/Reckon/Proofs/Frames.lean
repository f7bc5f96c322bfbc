import Reckon.Proofs.Binding
import Reckon.Proofs.Dependence

/-!
# Frames and their histories

A scope is a stack of frames, in each of which names come and go. What a frame binds can be told
from what has been done in it: a name is bound to what its first binding gave, unless it has been
removed since, and any other bindings after the first leave it as it is. A name stands for what the
innermost frame binds it to, among those frames that bind it. So a frame on top of another one hides
names of it and changes none.

Variables and functions are kept apart, but by the same rules, so that the histories of both are one
definition. An object in a history is the one that the operation has returned.

## Main definitions

* `Workspace.Edit`, `Workspace.edits` — the operations on a scope, and writing to variables.
* `Log.IsFree`, `Log.Binds`, `Resolves` — what a name stands for by the history.
* `Namespace.logs` — the histories of all frames.
* `Workspace.IsStack` — a workspace is a stack of frames with these histories.

## Main statements

* `Tracks.heeds` — what one event makes of a table and its history.
* `Workspace.IsOrdered.edit` — no cell is shared between frames.
* `Workspace.isStack_edits` — every workspace is a stack of frames.
-/

namespace Reckon

variable {α β : Type}

/-! ### Histories -/

/-- Something that has been done to a name in a frame. -/
inductive Event (β : Type) where
  /-- The name is bound, to what it was bound to before if it was bound. -/
  | bound (name : String) (b : β)
  | removed (name : String)

/-- What has been done in a frame, the latest last. -/
abbrev Log (β : Type) := List (Event β)

namespace Log

variable {log : Log β} {e : Event β} {n : String} {b b' : β}

/-- Whenever the name was bound, it has been removed since. -/
def IsFree (log : Log β) (n : String) : Prop :=
  ∀ earlier b later, log = earlier ++ .bound n b :: later → .removed n ∈ later

/-- The first binding of the name since it was last free gave `b`. -/
def Binds (log : Log β) (n : String) (b : β) : Prop :=
  ∃ earlier later, log = earlier ++ .bound n b :: later ∧ IsFree earlier n ∧ .removed n ∉ later

theorem isFree_nil (n : String) : IsFree ([] : Log β) n := by
  intro earlier b later h
  cases earlier <;> cases h

theorem IsFree.concat (h : IsFree log n) (he : ∀ b, e ≠ .bound n b) : IsFree (log ++ [e]) n := by
  intro earlier b later hlog
  obtain rfl | ⟨later, last, rfl⟩ := later.eq_nil_or_concat
  · have hlast := (List.append_inj' hlog rfl).2
    exact absurd (List.cons.inj hlast).1 (he b)
  · rw [List.concat_eq_append, ← List.cons_append, ← List.append_assoc] at hlog
    obtain ⟨rfl, -⟩ := List.append_inj' hlog rfl
    rw [List.concat_eq_append]
    exact List.mem_append_left _ (h earlier b later rfl)

theorem isFree_removed (log : Log β) (n : String) : IsFree (log ++ [.removed n]) n := by
  intro earlier b later hlog
  obtain rfl | ⟨later, last, rfl⟩ := later.eq_nil_or_concat
  · cases (List.append_inj' hlog rfl).2
  · rw [List.concat_eq_append, ← List.cons_append, ← List.append_assoc] at hlog
    rw [List.concat_eq_append, ← (List.append_inj' hlog rfl).2]
    exact List.mem_append_right _ List.mem_cons_self

theorem Binds.concat (h : Binds log n b) (he : e ≠ .removed n) : Binds (log ++ [e]) n b := by
  obtain ⟨earlier, later, rfl, hfree, hkept⟩ := h
  refine ⟨earlier, later ++ [e], by simp, hfree, fun hmem => ?_⟩
  obtain hmem | hmem := List.mem_append.1 hmem
  · exact hkept hmem
  · exact he (List.mem_singleton.1 hmem).symm

theorem IsFree.binds (h : IsFree log n) (b : β) : Binds (log ++ [.bound n b]) n b :=
  ⟨log, [], rfl, h, List.not_mem_nil⟩

theorem Binds.not_isFree (h : Binds log n b) : ¬ IsFree log n := by
  obtain ⟨earlier, later, rfl, -, hkept⟩ := h
  exact fun hfree => hkept (hfree _ _ _ rfl)

/-- A log does not bind a name twice. -/
theorem Binds.unique (h : Binds log n b) (h' : Binds log n b') : b = b' := by
  obtain ⟨earlier, later, rfl, hfree, hkept⟩ := h
  obtain ⟨earlier', later', hlog, hfree', hkept'⟩ := h'
  obtain ⟨mid, rfl, hmid⟩ | ⟨mid, rfl, hmid⟩ := List.append_eq_append_iff.1 hlog
  · cases mid with
    | nil => exact (Event.bound.inj (List.cons.inj hmid).1).2
    | cons e mid =>
      obtain ⟨rfl, rfl⟩ := List.cons.inj hmid
      exact absurd (List.mem_append_left _ (hfree' _ _ _ rfl)) hkept
  · cases mid with
    | nil => exact (Event.bound.inj (List.cons.inj hmid).1).2.symm
    | cons e mid =>
      obtain ⟨rfl, rfl⟩ := List.cons.inj hmid
      exact absurd (List.mem_append_left _ (hfree _ _ _ rfl)) hkept'

end Log

/-- What a name stands for, by the histories of all frames from the inside out: the innermost frame
that does not have it free decides. -/
def Resolves (logs : List (Log β)) (n : String) : Option β → Prop
  | some b => ∃ inner log outer, logs = inner ++ log :: outer ∧ (∀ l ∈ inner, Log.IsFree l n) ∧
      Log.Binds log n b
  | none => ∀ log ∈ logs, Log.IsFree log n

namespace Resolves

variable {logs : List (Log β)} {n : String} {b b' : β}

theorem not_none (h : Resolves logs n (some b)) : ¬ Resolves logs n none := by
  obtain ⟨inner, log, outer, rfl, -, hbinds⟩ := h
  exact fun hnone => hbinds.not_isFree (hnone log (by simp))

/-- The frame that decides comes first, so that another one is behind it or is the same. -/
theorem eq_of_some (h : Resolves logs n (some b)) (h' : Resolves logs n (some b')) : b = b' := by
  obtain ⟨inner, log, outer, rfl, hinner, hbinds⟩ := h
  obtain ⟨inner', log', outer', hlogs, hinner', hbinds'⟩ := h'
  obtain ⟨mid, rfl, hmid⟩ | ⟨mid, rfl, hmid⟩ := List.append_eq_append_iff.1 hlogs
  · cases mid with
    | nil =>
      obtain ⟨rfl, -⟩ := List.cons.inj hmid
      exact hbinds.unique hbinds'
    | cons l mid =>
      obtain ⟨rfl, -⟩ := List.cons.inj hmid
      exact absurd (hinner' log (by simp)) hbinds.not_isFree
  · cases mid with
    | nil =>
      obtain ⟨rfl, -⟩ := List.cons.inj hmid
      exact hbinds.unique hbinds'
    | cons l mid =>
      obtain ⟨rfl, -⟩ := List.cons.inj hmid
      exact absurd (hinner log' (by simp)) hbinds'.not_isFree

/-- A name does not stand for two things. -/
theorem unique {r r' : Option β} (h : Resolves logs n r) (h' : Resolves logs n r') : r = r' := by
  cases r with
  | none =>
    cases r' with
    | none => rfl
    | some b' => exact absurd h h'.not_none
  | some b =>
    cases r' with
    | none => exact absurd h' h.not_none
    | some b' => rw [h.eq_of_some h']

end Resolves

/-! ### Tables -/

/-- A table binds what its history says. -/
structure Tracks (t : Table β) (log : Log β) : Prop where
  isFree {n : String} (h : t.find? n = none) : Log.IsFree log n
  binds {n : String} {b : β} (h : t.find? n = some b) : Log.Binds log n b

/-- A table goes over into another one by an event, if there is one. -/
def Table.Heeds (t t' : Table β) : Option (Event β) → Prop
  | none => t' = t
  | some (.bound n b) =>
    (∀ b', t.find? n = some b' → b' = b) ∧ ∀ m, t'.find? m = if m = n then some b else t.find? m
  | some (.removed n) => ∀ m, t'.find? m = if m = n then none else t.find? m

namespace Table

variable {t : Table β} {n : String} {b : β}

/-- A name that is bound already is bound to the same as before. -/
theorem heeds_of_bound (h : t.find? n = some b) : t.Heeds t (some (.bound n b)) := by
  refine ⟨fun b' hb' => Option.some.inj (hb'.symm.trans h), fun m => ?_⟩
  split
  · next heq => rw [heq, h]
  · rfl

theorem heeds_insert (h : t.find? n = none) (b : β) :
    t.Heeds (t.insert n b) (some (.bound n b)) := by
  refine ⟨fun b' hb' => ?_, t.find?_insert n b⟩
  rw [h] at hb'
  cases hb'

end Table

theorem tracks_empty : Tracks ({} : Table β) [] where
  isFree _ := Log.isFree_nil _
  binds h := by cases h

/-- What an event makes of a table is what the history says that goes on with the event. -/
theorem Tracks.heeds {t t' : Table β} {log : Log β} {e? : Option (Event β)} (h : Tracks t log)
    (ht : t.Heeds t' e?) : Tracks t' (log ++ e?.toList) := by
  rcases e? with _ | ⟨m, c⟩ | m
  · obtain rfl : t' = t := ht
    rw [Option.toList_none, List.append_nil]
    exact h
  · obtain ⟨hsame, hfind⟩ := ht
    constructor
    · intro n hn
      rw [hfind] at hn
      split at hn
      · cases hn
      · next hne => exact (h.isFree hn).concat fun b hb => hne (Event.bound.inj hb).1.symm
    · intro n b hn
      rw [hfind] at hn
      split at hn
      · next heq =>
        obtain rfl := heq
        obtain rfl := Option.some.inj hn
        cases hold : t.find? n with
        | none => exact (h.isFree hold).binds c
        | some b' =>
          obtain rfl := hsame b' hold
          exact (h.binds hold).concat nofun
      · exact (h.binds hn).concat nofun
  · have hfind : ∀ n, t'.find? n = if n = m then none else t.find? n := ht
    constructor
    · intro n hn
      rw [hfind] at hn
      split at hn
      · next heq =>
        obtain rfl := heq
        exact Log.isFree_removed log n
      · exact (h.isFree hn).concat nofun
    · intro n b hn
      rw [hfind] at hn
      split at hn
      · cases hn
      · next hne => exact (h.binds hn).concat fun hb => hne (Event.removed.inj hb).symm

/-- A name that is looked up in some tables, one after another, stands for what it does by their
histories. -/
theorem resolves_findSome? {tables : List (Table β)} {logs : List (Log β)}
    (h : List.Forall₂ Tracks tables logs) (n : String) :
    Resolves logs n (tables.findSome? (·.find? n)) := by
  induction h with
  | nil => exact List.forall_mem_nil _
  | @cons t log tables logs hlog _ ih =>
    rw [List.findSome?_cons]
    cases ht : t.find? n with
    | some b => exact ⟨[], log, logs, rfl, List.forall_mem_nil _, hlog.binds ht⟩
    | none =>
      have hfree := hlog.isFree ht
      dsimp only
      generalize tables.findSome? (·.find? n) = r at ih ⊢
      cases r with
      | none => exact List.forall_mem_cons.2 ⟨hfree, ih⟩
      | some b =>
        obtain ⟨inner, log', outer, rfl, hinner, hbinds⟩ := ih
        exact ⟨log :: inner, log', outer, rfl, List.forall_mem_cons.2 ⟨hfree, hinner⟩, hbinds⟩

/-! ### Operations -/

/-- What can be done to a workspace: the operations on its scope, and writing to a variable that
somebody holds. -/
inductive Workspace.Edit (α : Type) where
  | push
  | pop
  | createConstant (name : String) (x : α)
  | createVariable (name : String)
  | createFunction (name : String) (f : Function α)
  | removeVariable (name : String)
  | removeFunction (name : String)
  | write (v : Variable) (x : α)
  | freeze (v : Variable) (x : α)

namespace Workspace

/-- The operations that leave the stack of frames as high as it is. -/
def Edit.IsLocal : Edit α → Prop
  | .push | .pop => False
  | _ => True

/-- The variable that is written to, for those who hold it. -/
def Edit.written? : Edit α → Option Variable
  | .write v _ | .freeze v _ => some v
  | _ => none

variable [Arithmetic α]

/-- The workspace after an operation. The last frame is not dropped. -/
def edit (w : Workspace α) : Edit α → Workspace α
  | .push => w.push
  | .pop => w.pop?.getD w
  | .createConstant name x => (w.createConstant name x).2
  | .createVariable name => (w.createVariable name).2
  | .createFunction name f => (w.createFunction name f).2
  | .removeVariable name => (w.removeVariable name).2
  | .removeFunction name => (w.removeFunction name).2
  | .write v x => w.write v x
  | .freeze v x => w.freeze v x

/-- The workspace after some operations. -/
def edits (w : Workspace α) (es : List (Edit α)) : Workspace α := es.foldl edit w

/-- What an operation does to a variable of the innermost frame. -/
def variableEvent? (w : Workspace α) : Edit α → Option (Event Variable)
  | .createConstant name x => some (.bound name (w.createConstant name x).1)
  | .createVariable name => some (.bound name (w.createVariable name).1)
  | .removeVariable name => some (.removed name)
  | _ => none

/-- What an operation does to a function of the innermost frame. -/
def functionEvent? (w : Workspace α) : Edit α → Option (Event (Function α))
  | .createFunction name f => some (.bound name (w.createFunction name f).1)
  | .removeFunction name => some (.removed name)
  | _ => none

end Workspace

open Workspace (Edit)

variable [Arithmetic α]

/-- The histories of all frames from the inside out, after an operation. -/
def Workspace.Edit.record (e : Edit α) (event? : Option (Event β)) (logs : List (Log β)) :
    List (Log β) :=
  match e, logs with
  | .push, logs => [] :: logs
  | .pop, _ :: log :: logs => log :: logs
  | .pop, logs => logs
  | _, log :: logs => (log ++ event?.toList) :: logs
  | _, [] => []

/-- One of the two kinds of things that have names: where a frame binds them, and what an operation
does to them. -/
structure Namespace (α β : Type) where
  table : Frame α → Table β
  event? : Workspace α → Edit α → Option (Event β)

namespace Namespace

/-- The variables. -/
def ofVariables : Namespace α Variable := ⟨Frame.variableTable, Workspace.variableEvent?⟩

/-- The functions. -/
def ofFunctions : Namespace α (Function α) := ⟨Frame.functionTable, Workspace.functionEvent?⟩

/-- The histories that operations make of those that there are. -/
def logsFrom (k : Namespace α β) : Workspace α → List (Log β) → List (Edit α) → List (Log β)
  | _, logs, [] => logs
  | w, logs, e :: es => k.logsFrom (w.edit e) (e.record (k.event? w e) logs) es

/-- The histories of all frames from the inside out, when operations have been done to a workspace
in which no name was bound. -/
def logs (k : Namespace α β) (time : α) (es : List (Edit α)) : List (Log β) :=
  k.logsFrom (.empty time) [[]] es

/-- The tables heed the events. -/
structure IsHeeded (k : Namespace α β) : Prop where
  table_empty : k.table {} = {}
  heeds (w : Workspace α) {e : Edit α} (he : e.IsLocal) :
    (k.table w.scope.inner).Heeds (k.table (w.edit e).scope.inner) (k.event? w e)

end Namespace

namespace Workspace

variable {w : Workspace α} {e : Edit α}

omit [Arithmetic α] in
theorem Edit.record_of_isLocal (he : e.IsLocal) (event? : Option (Event β)) (log : Log β)
    (logs : List (Log β)) : e.record event? (log :: logs) = (log ++ event?.toList) :: logs := by
  cases e with
  | push | pop => exact he.elim
  | _ => rfl

theorem outer_edit (w : Workspace α) (he : e.IsLocal) :
    (w.edit e).scope.outer = w.scope.outer := by
  cases e with
  | push | pop => exact he.elim
  | createConstant name x => exact outer_of_changes (changes_createConstant w name x)
  | createVariable name => exact outer_of_changes (changes_createVariable w name)
  | createFunction name f =>
    rw [edit, createFunction]
    split <;> rfl
  | removeVariable | removeFunction | write | freeze => rfl

end Workspace

namespace Namespace

theorem IsHeeded.tracks_empty {k : Namespace α β} (hk : k.IsHeeded) : Tracks (k.table {}) [] :=
  hk.table_empty ▸ Reckon.tracks_empty

theorem isHeeded_ofVariables : (ofVariables : Namespace α Variable).IsHeeded where
  table_empty := rfl
  heeds w e he := by
    cases e with
    | push | pop => exact he.elim
    | createConstant name x =>
      simp only [ofVariables, Workspace.variableEvent?, Workspace.edit]
      cases h : w.scope.localVariable? name with
      | some v =>
        rw [Workspace.createConstant_of_local x h]
        exact Table.heeds_of_bound h
      | none =>
        rw [Workspace.createConstant_of_free x h]
        exact Table.heeds_insert h _
    | createVariable name =>
      simp only [ofVariables, Workspace.variableEvent?, Workspace.edit]
      cases h : w.scope.localVariable? name with
      | some v =>
        rw [Workspace.createVariable_of_local h]
        exact Table.heeds_of_bound h
      | none =>
        rw [Workspace.createVariable_of_free h]
        exact Table.heeds_insert h _
    | createFunction name f =>
      simp only [ofVariables, Workspace.variableEvent?, Workspace.edit, Workspace.createFunction]
      split <;> rfl
    | removeVariable name => exact Table.find?_erase _ name
    | removeFunction | write | freeze => rfl

theorem isHeeded_ofFunctions : (ofFunctions : Namespace α (Function α)).IsHeeded where
  table_empty := rfl
  heeds w e he := by
    cases e with
    | push | pop => exact he.elim
    | createFunction name f =>
      simp only [ofFunctions, Workspace.functionEvent?, Workspace.edit, Workspace.createFunction]
      split
      · next g h => exact Table.heeds_of_bound h
      · next h => exact Table.heeds_insert h f
    | createConstant name x =>
      simp only [ofFunctions, Workspace.functionEvent?, Workspace.edit, Workspace.createConstant]
      split <;> rfl
    | createVariable name =>
      simp only [ofFunctions, Workspace.functionEvent?, Workspace.edit, Workspace.createVariable]
      split <;> rfl
    | removeFunction name => exact Table.find?_erase _ name
    | removeVariable | write | freeze => rfl

/-- The frames bind what their histories say. -/
def Tracked (k : Namespace α β) (s : Scope α) (logs : List (Log β)) : Prop :=
  List.Forall₂ (fun f log => Tracks (k.table f) log) s.frames logs

variable {k : Namespace α β} {w : Workspace α} {logs : List (Log β)}

/-- The frames still bind what their histories say after one more operation. -/
theorem Tracked.edit (hk : k.IsHeeded) (h : k.Tracked w.scope logs) (e : Edit α) :
    k.Tracked (w.edit e).scope (e.record (k.event? w e) logs) := by
  have hlocal {e : Edit α} (he : e.IsLocal) :
      k.Tracked (w.edit e).scope (e.record (k.event? w e) logs) := by
    cases h with
    | cons hlog hlogs =>
      rw [Edit.record_of_isLocal he, Tracked, Scope.frames, Workspace.outer_edit w he]
      exact .cons (hlog.heeds (hk.heeds w he)) hlogs
  cases e with
  | push => exact .cons hk.tracks_empty h
  | pop =>
    rcases w with ⟨store, inner, _ | ⟨f, outer⟩⟩
    · rcases h with _ | ⟨hlog, _ | _⟩
      exact .cons hlog .nil
    · rcases h with _ | ⟨-, _ | ⟨hlog, hlogs⟩⟩
      exact .cons hlog hlogs
  | _ => exact hlocal trivial

theorem Tracked.edits (hk : k.IsHeeded) (h : k.Tracked w.scope logs) (es : List (Edit α)) :
    k.Tracked (w.edits es).scope (k.logsFrom w logs es) := by
  induction es generalizing w logs with
  | nil => exact h
  | cons e es ih => exact ih (h.edit hk e)

theorem tracked_logs (hk : k.IsHeeded) (time : α) (es : List (Edit α)) :
    k.Tracked ((Workspace.empty time).edits es).scope (k.logs time es) := by
  exact Tracked.edits hk (.cons hk.tracks_empty .nil) es

omit [Arithmetic α] in
/-- The object that a name is bound to is the one that the histories say. -/
theorem Tracked.resolves_iff {s : Scope α} (h : k.Tracked s logs) (n : String) (r : Option β) :
    s.frames.findSome? (fun f => (k.table f).find? n) = r ↔ Resolves logs n r := by
  have hr := resolves_findSome? (List.forall₂_map_left_iff.2 h) n
  rw [List.findSome?_map] at hr
  exact ⟨fun h => h ▸ hr, hr.unique⟩

end Namespace

/-! ### Cells -/

namespace Workspace

/-- The variables of every frame go by the names that they are bound to, and no two frames share a
cell. -/
structure IsOrdered (w : Workspace α) : Prop where
  name_eq {f : Frame α} (hf : f ∈ w.scope.frames) {n : String} {v : Variable}
    (h : f.variableTable.find? n = some v) : v.name = n
  index_lt {f : Frame α} (hf : f ∈ w.scope.frames) {n : String} {v : Variable}
    (h : f.variableTable.find? n = some v) : v.index < w.store.cells.size
  apart : w.scope.frames.Pairwise fun f g => ∀ {m n : String} {u v : Variable},
    f.variableTable.find? m = some u → g.variableTable.find? n = some v → u.index ≠ v.index

variable {w w' : Workspace α} {e : Edit α} {f : Frame α} {n : String} {v : Variable}

/-- What an operation on the innermost frame can do to variables: no cell is touched and no name is
bound; one cell is filled, which somebody holds or which the innermost frame has; or a name that is
free in the innermost frame is bound to a new cell. -/
theorem edit_cases (w : Workspace α) (he : e.IsLocal) :
    ((w.edit e).store = w.store ∧ ∀ {n v}, (w.edit e).scope.localVariable? n = some v →
        w.scope.localVariable? n = some v) ∨
      (∃ u c, (w.edit e).store = w.store.put u c ∧ (w.edit e).scope = w.scope ∧
        (w.store.isConstant u → c.constant) ∧
          (e.written? = some u ∨ ∃ n, w.scope.localVariable? n = some u)) ∨
      ∃ n c, w.scope.localVariable? n = none ∧ w.edit e = w.bindNew n c := by
  cases e with
  | push | pop => exact he.elim
  | createConstant name x =>
    rw [edit]
    cases h : w.scope.localVariable? name with
    | some u =>
      rw [createConstant_of_local x h]
      exact .inr (.inl ⟨u, ⟨x, true⟩, rfl, rfl, fun _ => rfl, .inr ⟨name, h⟩⟩)
    | none =>
      rw [createConstant_of_free x h]
      exact .inr (.inr ⟨name, _, h, rfl⟩)
  | createVariable name =>
    rw [edit]
    cases h : w.scope.localVariable? name with
    | some u =>
      rw [createVariable_of_local h]
      exact .inl ⟨rfl, id⟩
    | none =>
      rw [createVariable_of_free h]
      exact .inr (.inr ⟨name, _, h, rfl⟩)
  | createFunction name f =>
    rw [edit, createFunction]
    split <;> exact .inl ⟨rfl, id⟩
  | removeVariable name =>
    refine .inl ⟨rfl, fun {n v} hv => ?_⟩
    have herase := Table.find?_erase w.scope.inner.variableTable name n
    have hv : (w.scope.inner.variableTable.erase name).find? n = some v := hv
    rw [herase] at hv
    split at hv
    · cases hv
    · exact hv
  | removeFunction => exact .inl ⟨rfl, id⟩
  | write u x => exact .inr (.inl ⟨u, ⟨x, w.store.isConstant u⟩, rfl, rfl, id, .inl rfl⟩)
  | freeze u x => exact .inr (.inl ⟨u, ⟨x, true⟩, rfl, rfl, fun _ => rfl, .inl rfl⟩)

theorem store_edit_of_moving (w : Workspace α) (he : ¬ e.IsLocal) : (w.edit e).store = w.store := by
  cases e with
  | push => rfl
  | pop => rcases w with ⟨store, inner, _ | ⟨f, outer⟩⟩ <;> rfl
  | _ => exact absurd trivial he

namespace IsOrdered

omit [Arithmetic α] in
theorem empty (time : α) : (Workspace.empty time).IsOrdered := by
  refine ⟨fun {f} hf {n v} hv => ?_, fun {f} hf {n v} hv => ?_, List.pairwise_singleton ..⟩
  all_goals
    obtain rfl := List.mem_singleton.1 hf
    cases hv

omit [Arithmetic α] in
/-- The innermost frame may lose variables and get one with a new cell. -/
theorem of_local (h : w.IsOrdered) (houter : w'.scope.outer = w.scope.outer)
    (hsize : w.store.cells.size ≤ w'.store.cells.size)
    (hinner : ∀ {n v}, w'.scope.localVariable? n = some v → w.scope.localVariable? n = some v ∨
      v = w.fresh n ∧ w.store.cells.size < w'.store.cells.size) : w'.IsOrdered := by
  have hmem {f : Frame α} (hf : f ∈ w.scope.outer) : f ∈ w.scope.frames := List.mem_cons_of_mem _ hf
  have hframes : w'.scope.frames = w'.scope.inner :: w.scope.outer := by rw [Scope.frames, houter]
  have happart := List.pairwise_cons.1 h.apart
  refine ⟨fun {f} hf {n v} hv => ?_, fun {f} hf {n v} hv => ?_, ?_⟩
  · rw [hframes] at hf
    obtain rfl | hf := List.mem_cons.1 hf
    · obtain hold | ⟨rfl, -⟩ := hinner hv
      · exact h.name_eq List.mem_cons_self hold
      · rfl
    · exact h.name_eq (hmem hf) hv
  · rw [hframes] at hf
    obtain rfl | hf := List.mem_cons.1 hf
    · obtain hold | ⟨rfl, hlt⟩ := hinner hv
      · exact (h.index_lt List.mem_cons_self hold).trans_le hsize
      · exact hlt
    · exact (h.index_lt (hmem hf) hv).trans_le hsize
  · rw [hframes]
    refine List.pairwise_cons.2 ⟨fun g hg {m n u v} hu hv => ?_, happart.2⟩
    obtain hold | ⟨rfl, -⟩ := hinner hu
    · exact happart.1 g hg hold hv
    · -- The new cell comes after all those that frames have had so far.
      exact Nat.ne_of_gt (h.index_lt (hmem hg) hv)

/-- No operation makes two frames share a cell. -/
theorem edit (h : w.IsOrdered) (e : Edit α) : (w.edit e).IsOrdered := by
  have hlocal {e : Edit α} (he : e.IsLocal) : (w.edit e).IsOrdered := by
    obtain ⟨hstore, hinner⟩ | ⟨u, c, hstore, hscope, -⟩ | ⟨n, c, -, hnew⟩ := edit_cases w he
    · exact h.of_local (outer_edit w he) (by rw [hstore]) fun hv => .inl (hinner hv)
    · exact h.of_local (outer_edit w he) (by rw [hstore, Store.size_put]) fun hv =>
        .inl (hscope ▸ hv)
    · rw [hnew]
      have hsize : (w.bindNew n c).store.cells.size = w.store.cells.size + 1 :=
        Store.size_add w.store n c
      refine h.of_local rfl (by omega) fun {m v} hv => ?_
      rw [bindNew, Scope.localVariable?_bindVariable] at hv
      split at hv
      · next hm =>
        obtain rfl := hm
        exact .inr ⟨(Option.some.inj hv).symm, by omega⟩
      · exact .inl hv
  cases e with
  | push =>
    refine ⟨fun {f} hf {n v} hv => ?_, fun {f} hf {n v} hv => ?_, ?_⟩
    · obtain rfl | hf := List.mem_cons.1 hf
      · cases hv
      · exact h.name_eq hf hv
    · obtain rfl | hf := List.mem_cons.1 hf
      · cases hv
      · exact h.index_lt hf hv
    · refine List.pairwise_cons.2 ⟨fun g hg {m n u v} hu => ?_, h.apart⟩
      cases hu
  | pop =>
    rcases w with ⟨store, inner, _ | ⟨f, outer⟩⟩
    · exact h
    · exact ⟨fun hg => h.name_eq (List.mem_cons_of_mem _ hg),
        fun hg => h.index_lt (List.mem_cons_of_mem _ hg), (List.pairwise_cons.1 h.apart).2⟩
  | _ => exact hlocal trivial

theorem edits (h : w.IsOrdered) (es : List (Edit α)) : (w.edits es).IsOrdered := by
  induction es generalizing w with
  | nil => exact h
  | cons e es ih => exact ih (h.edit e)

/-- An operation does not touch a cell that another frame than the innermost one has, unless the
cell is written to by somebody who holds it. -/
theorem cell_edit (h : w.IsOrdered) (e : Edit α) (hf : f ∈ w.scope.outer)
    (hv : f.variableTable.find? n = some v) (he : ∀ u ∈ e.written?, u.index ≠ v.index) :
    (w.edit e).store.cell v = w.store.cell v := by
  by_cases hlocal : e.IsLocal
  · obtain ⟨hstore, -⟩ | ⟨u, c, hstore, -, -, hu⟩ | ⟨m, c, -, hnew⟩ := edit_cases w hlocal
    · rw [hstore]
    · rw [hstore]
      refine Store.cell_put_of_ne c ?_
      obtain hu | ⟨m, hu⟩ := hu
      · exact he u hu
      · exact (List.pairwise_cons.1 h.apart).1 f hf hu hv
    · rw [hnew]
      exact Store.cell_add_of_lt m c (h.index_lt (List.mem_cons_of_mem _ hf) hv)
  · rw [store_edit_of_moving w hlocal]

end IsOrdered

theorem isConstant_edit (h : w.store.isConstant v) (e : Edit α) :
    (w.edit e).store.isConstant v := by
  by_cases hlocal : e.IsLocal
  · obtain ⟨hstore, -⟩ | ⟨u, c, hstore, -, hc, -⟩ | ⟨m, c, -, hnew⟩ := edit_cases w hlocal
    · rwa [hstore]
    · rw [hstore]
      exact Store.isConstant_put hc h
    · rw [hnew]
      exact (Store.Keeps.add w.store m c).isConstant_eq (Store.lt_of_isConstant h) ▸ h
  · rwa [store_edit_of_moving w hlocal]

theorem isConstant_edits (h : w.store.isConstant v) (es : List (Edit α)) :
    (w.edits es).store.isConstant v := by
  induction es generalizing w with
  | nil => exact h
  | cons e es ih => exact ih (isConstant_edit h e)

/-- The frames around the innermost one stay as they are. -/
theorem outer_suffix_edit (w : Workspace α) (e : Edit α) :
    w.scope.outer <:+ (w.edit e).scope.frames := by
  by_cases hlocal : e.IsLocal
  · rw [Scope.frames, outer_edit w hlocal]
    exact List.suffix_cons ..
  · cases e with
    | push => exact (List.suffix_cons ..).trans (List.suffix_cons ..)
    | pop =>
      rcases w with ⟨store, inner, _ | ⟨f, outer⟩⟩
      · exact List.nil_suffix
      · exact List.suffix_rfl
    | _ => exact absurd trivial hlocal

end Workspace

/-! ### Names -/

theorem Table.mem_names {t : Table β} {n : String} : n ∈ t.names ↔ (t.find? n).isSome := by
  simp only [names, find?, List.lookup_isSome_iff, List.mem_map, beq_iff_eq]
  exact exists_congr fun _ => and_congr_right fun _ => eq_comm

omit [Arithmetic α] in
/-- The names of a scope are those that stand for a variable or a function. -/
theorem Scope.mem_names {s : Scope α} {n : String} :
    n ∈ s.names ↔ (s.findVariable? n).isSome ∨ (s.findFunction? n).isSome := by
  simp only [names, findVariable?, findFunction?, List.mem_flatMap, List.findSome?_isSome_iff,
    Frame.names, mem_sortedNames, List.mem_append, Table.mem_names, and_or_left, exists_or]

/-! ### Stacks -/

/-- The function that a name is bound to in the frames around the innermost one. -/
def Scope.outerFunction? (s : Scope α) (name : String) : Option (Function α) :=
  s.outer.findSome? (·.functionTable.find? name)

/-- A workspace is a stack of frames with the given histories, from the inside out, and its cells
last. -/
structure Workspace.IsStack (w : Workspace α) (variableLogs : List (Log Variable))
    (functionLogs : List (Log (Function α))) : Prop where
  /-- A name stands for what its first binding gave, in the innermost frame that has it bound. -/
  findVariable?_iff (n : String) (r : Option Variable) :
    w.scope.findVariable? n = r ↔ Resolves variableLogs n r
  findFunction?_iff (n : String) (r : Option (Function α)) :
    w.scope.findFunction? n = r ↔ Resolves functionLogs n r
  /-- The frames around the innermost one stay on the stack as they are. -/
  outer_suffix (e : Edit α) : w.scope.outer <:+ (w.edit e).scope.frames
  /-- What they have bound is not touched, unless somebody who holds it writes to it. -/
  cell_eq (e : Edit α) {f : Frame α} (hf : f ∈ w.scope.outer) {n : String} {v : Variable}
    (hv : f.variableTable.find? n = some v) (he : ∀ u ∈ e.written?, u.index ≠ v.index) :
    (w.edit e).store.cell v = w.store.cell v
  /-- Once it is removed, a name stands for what it does around the innermost frame. -/
  findVariable?_removed (n : String) :
    (w.edit (.removeVariable n)).scope.findVariable? n = w.scope.outerVariable? n
  findFunction?_removed (n : String) :
    (w.edit (.removeFunction n)).scope.findFunction? n = w.scope.outerFunction? n
  /-- A constant stays one, whatever is done next. -/
  isConstant (es : List (Edit α)) {v : Variable} (hv : w.store.isConstant v) :
    (w.edits es).store.isConstant v
  name_eq {f : Frame α} (hf : f ∈ w.scope.frames) {n : String} {v : Variable}
    (hv : f.variableTable.find? n = some v) : v.name = n
  mem_names_iff (n : String) :
    n ∈ w.scope.names ↔ (w.scope.findVariable? n).isSome ∨ (w.scope.findFunction? n).isSome

namespace Workspace

theorem findVariable?_removeVariable (w : Workspace α) (n : String) :
    (w.edit (.removeVariable n)).scope.findVariable? n = w.scope.outerVariable? n := by
  have hfree : (w.edit (.removeVariable n)).scope.inner.variableTable.find? n = none :=
    (Table.find?_erase _ n n).trans (if_pos rfl)
  rw [Scope.findVariable?, Scope.frames, List.findSome?_cons, hfree]
  rfl

theorem findFunction?_removeFunction (w : Workspace α) (n : String) :
    (w.edit (.removeFunction n)).scope.findFunction? n = w.scope.outerFunction? n := by
  have hfree : (w.edit (.removeFunction n)).scope.inner.functionTable.find? n = none :=
    (Table.find?_erase _ n n).trans (if_pos rfl)
  rw [Scope.findFunction?, Scope.frames, List.findSome?_cons, hfree]
  rfl

/-- Whatever is done to a workspace in which no name was bound, it becomes a stack of frames with
the histories of what has been done. -/
theorem isStack_edits (time : α) (es : List (Edit α)) :
    ((empty time).edits es).IsStack (Namespace.ofVariables.logs time es)
      (Namespace.ofFunctions.logs time es) := by
  have hordered : ((empty time).edits es).IsOrdered := (IsOrdered.empty time).edits es
  have hvariables := Namespace.tracked_logs Namespace.isHeeded_ofVariables time es
  have hfunctions := Namespace.tracked_logs Namespace.isHeeded_ofFunctions time es
  exact {
    findVariable?_iff := hvariables.resolves_iff
    findFunction?_iff := hfunctions.resolves_iff
    outer_suffix := outer_suffix_edit _
    cell_eq := fun e {_} hf {_ _} hv he => hordered.cell_edit e hf hv he
    findVariable?_removed := findVariable?_removeVariable _
    findFunction?_removed := findFunction?_removeFunction _
    isConstant := fun es {_} hv => isConstant_edits hv es
    name_eq := hordered.name_eq
    mem_names_iff := fun _ => Scope.mem_names }

/-- A name that is hidden, removed and bound again, and what is under it. -/
theorem isStack_edits_hidden :
    let es : List (Edit ℚ) := [.createVariable "x", .push, .createConstant "x" 1,
      .removeVariable "x", .createVariable "x", .createConstant "x" 2]
    let w := (empty (0 : ℚ)).edits es
    Resolves (Namespace.ofVariables.logs 0 es) "x" (some ⟨"x", 2⟩) ∧
      (w.edit (.removeVariable "x")).scope.findVariable? "x" = some ⟨"x", 0⟩ := by
  intro es w
  have hstack := isStack_edits 0 es
  exact ⟨(hstack.findVariable?_iff "x" _).1 rfl, hstack.findVariable?_removed "x"⟩

end Workspace

end Reckon
