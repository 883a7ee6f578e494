import Mathlib
import EntityFilter.Model.Document
import EntityFilter.Proofs.Entries
import EntityFilter.Proofs.Fallible
import EntityFilter.Proofs.FieldOrder

namespace EntityFilter.Decoder

open Fallible

variable {α σ : Type} {d : Decoder α} {k : Nat}

/-- However the value is written, it is read as `x` by a decoder that may enter `k` levels. -/
def Recovers (d : Decoder α) (k : Nat) (j : Json) (x : α) : Prop :=
  j.Outlined fun o => ∀ n, k ≤ n → d n o = .ok x

theorem exists_level {n : Nat} (enough : k + 1 ≤ n) : ∃ m, k ≤ m ∧ n = m + 1 := by
  cases n with
  | zero => cases enough
  | succ m => exact ⟨m, Nat.le_of_succ_le_succ enough, rfl⟩

namespace Recovers

theorem text (s : String) : Recovers Decoder.text 0 (.string s) s := by
  refine (Json.Outlined.string s).mono ?_
  rintro _ rfl n -
  rfl

theorem flag (b : Bool) : Recovers Decoder.flag 0 (.bool b) b := by
  refine (Json.Outlined.bool b).mono ?_
  rintro _ rfl n -
  rfl

theorem json_string (s : String) : Recovers json 0 (.string s) (.string s) := by
  refine (Json.Outlined.string s).mono ?_
  rintro _ rfl n -
  rw [json.eq_def]
  rfl

theorem list {encode : α → Json} (each : ∀ x, Recovers d k (encode x) x) (xs : List α) :
    Recovers (Decoder.list d) (k + 1) (.array (xs.map encode)) xs := by
  have items : List.Forall₂ (Recovers d k) (xs.map encode) xs :=
    List.forall₂_map_left_iff.mpr (List.forall₂_same.mpr fun x _ => each x)
  refine (Json.Outlined.array items).mono ?_
  rintro _ ⟨os, rfl, here⟩ n enough
  obtain ⟨m, left, rfl⟩ := exists_level enough
  have read : os.mapM (d m) = .ok xs := mapM_of_forall₂ (here.imp fun o x reads => reads m left)
  rw [Decoder.list, read]
  rfl

theorem jsonItems_eq_mapM (n : Nat) (os : List Outline) : jsonItems n os = os.mapM (json n) := by
  induction os with
  | nil =>
    rw [jsonItems]
    rfl
  | cons o os ih =>
    rw [jsonItems, ih, List.mapM_cons]
    rfl

theorem json_strings (ss : List String) : Recovers json 1 (.ofStrings ss) (.ofStrings ss) := by
  have each : List.Forall₂ (Recovers json 0) (ss.map .string) (ss.map .string) :=
    List.forall₂_map_left_iff.mpr (List.forall₂_map_right_iff.mpr
      (List.forall₂_same.mpr fun s _ => json_string s))
  refine (Json.Outlined.array each).mono ?_
  rintro _ ⟨os, rfl, here⟩ n enough
  obtain ⟨m, left, rfl⟩ := exists_level enough
  have read : jsonItems m os = .ok (ss.map .string) :=
    (jsonItems_eq_mapM m os).trans (mapM_of_forall₂ (here.imp fun o j reads => reads m left))
  rw [json, read]
  rfl

/-- A table is read back from its entries in any order, since no two have one name. -/
theorem table {t : Table α} {encode : α → Json} (each : ∀ x, Recovers d k (encode x) x) :
    Recovers (Decoder.table d) (k + 1) (.object (t.entries.map fun e => (e.1, encode e.2))) t := by
  have entries : List.Forall₂
      (fun (f : String × Json) (e : String × α) => f.2.Outlined fun o =>
        e.1 = f.1 ∧ ∀ n, k ≤ n → d n o = .ok e.2)
      (t.entries.map fun e => (e.1, encode e.2)) t.entries :=
    List.forall₂_map_left_iff.mpr (List.forall₂_same.mpr fun e _ =>
      (each e.2).mono fun o reads => ⟨rfl, reads⟩)
  refine (Json.Outlined.object (q := fun name o (e : String × α) =>
    e.1 = name ∧ ∀ n, k ≤ n → d n o = .ok e.2) entries).mono ?_
  rintro _ ⟨ms, es, rfl, order, here⟩ n enough
  obtain ⟨m, left, rfl⟩ := exists_level enough
  refine map_eq_ok.mpr ⟨es, ?_, Table.ofList_of_perm order⟩
  refine bind_eq_ok.mpr ⟨es, mapM_of_forall₂ (here.imp ?_), rfl⟩
  rintro ⟨_, o⟩ ⟨_, x⟩ ⟨name, rfl, rfl, reads⟩
  exact bind_eq_ok.mpr ⟨_, rfl, bind_eq_ok.mpr ⟨x, reads m left, rfl⟩⟩

end Recovers

section

variable {β : Type} {into : Nat → σ → Except JsonFault String × Outline → Except JsonFault σ}
  {step : σ → β → Except JsonFault σ}

/-- However the member's value is written, it does to the record what `y` stands for. -/
def Adds (into : Nat → σ → Except JsonFault String × Outline → Except JsonFault σ)
    (step : σ → β → Except JsonFault σ) (k : Nat) (f : String × Json) (y : β) : Prop :=
  f.2.Outlined fun o => ∀ n, k ≤ n → ∀ s, into n s (.ok f.1, o) = step s y

/-- The members of a record are read in whatever order they come, and each does what it stands for.
-/
theorem Adds.members {fs : List (String × Json)} {ys : List β}
    (each : List.Forall₂ (Adds into step k) fs ys) (distinct : (fs.map (·.1)).Nodup) :
    (Json.ofFields fs).Outlined fun o => ∃ ms, ∃ ys' : List β, o = .object ms .closed ∧
      ys'.Perm ys ∧ ∀ n, k ≤ n → ∀ s, ms.foldlM (into n) s = ys'.foldlM step s := by
  obtain ⟨ys', each', order⟩ := List.perm_comp_forall₂ (Table.entries_ofList_perm distinct) each
  refine (Json.Outlined.object (q := fun name o y => ∀ n, k ≤ n → ∀ s,
    into n s (.ok name, o) = step s y) each').mono ?_
  rintro _ ⟨ms, zs, rfl, order', here⟩
  refine ⟨ms, zs, rfl, order'.trans order, ?_⟩
  intro n enough
  clear order'
  induction here with
  | nil => exact fun s => rfl
  | @cons m y ms zs first _ ih =>
    intro s
    obtain ⟨_, o⟩ := m
    obtain ⟨name, rfl, reads⟩ := first
    rw [List.foldlM_cons, List.foldlM_cons, reads n enough s]
    cases step s y with
    | error f => rfl
    | ok s' => exact ih s'

end

/-- Puts a value where none is yet. -/
def fill {β : Type} (old : σ → Option β) (set : σ → β → σ) (x : β) (s : σ) : Except JsonFault σ :=
  if (old s).isSome then .error .unfit else .ok (set s x)

/-- Fields that are kept in different places can be filled in either order. -/
theorem fill_commute {β γ : Type} {old : σ → Option β} {set : σ → β → σ} {old' : σ → Option γ}
    {set' : σ → γ → σ} {x : β} {y : γ} (kept : ∀ s, old' (set s x) = old' s)
    (kept' : ∀ s, old (set' s y) = old s) (either : ∀ s, set' (set s x) y = set (set' s y) x)
    (s : σ) : fill old set x s >>= fill old' set' y = fill old' set' y s >>= fill old set x := by
  cases here : (old s).isSome <;> cases there : (old' s).isSome <;>
    simp [fill, bind, Except.bind, here, there, kept, kept', either]

/-- A field that may be given once fills its place if that is empty. -/
theorem Adds.once {β : Type} {field : σ → String → Field σ} {name : String} {j : Json}
    {d : Decoder β} {x : β} (old : σ → Option β) (set : σ → β → σ)
    (named : ∀ s, field s name = Decoder.once (old s) d (set s)) (reads : Recovers d k j x) :
    Adds (memberInto field) (fun s add => add s) k (name, j) (fill old set x) := by
  refine Json.Outlined.mono reads ?_
  intro o reads n enough s
  change (field s name).readInto n s o = fill old set x s
  rw [named, Decoder.once, fill]
  split
  · rfl
  · rw [Field.readInto, reads n enough]
    rfl

/-- What is done in turn may be done in any order where each two may be done either way round. -/
theorem foldlM_perm {ε : Type} {adds adds' : List (σ → Except ε σ)} (moved : adds'.Perm adds)
    (commute : adds.Pairwise fun f g => ∀ s, f s >>= g = g s >>= f) (s : σ) :
    adds'.foldlM (fun s add => add s) s = adds.foldlM (fun s add => add s) s := by
  have either : ∀ {f g : σ → Except ε σ}, (∀ s, f s >>= g = g s >>= f) →
      ∀ s, g s >>= f = f s >>= g := fun commute s => (commute s).symm
  induction moved generalizing s with
  | nil => rfl
  | cons add _ ih =>
    rw [List.foldlM_cons, List.foldlM_cons]
    exact congrArg (add s >>= ·) (funext fun s => ih (List.pairwise_cons.mp commute).2 s)
  | swap f g adds =>
    have here : ∀ s, f s >>= g = g s >>= f := (List.pairwise_cons.mp commute).1 g List.mem_cons_self
    simp only [List.foldlM_cons, ← bind_assoc]
    rw [here]
  | trans _ later first last =>
    rw [first (later.symm.pairwise commute either), last commute]

/-- A record is read back if what its members add to it does not depend on their order. -/
theorem Recovers.record {empty : σ} {field : σ → String → Field σ} {order : List (σ → Field σ)}
    {build? : σ → Option α} {fs : List (String × Json)} {adds : List (σ → Except JsonFault σ)}
    (each : List.Forall₂ (Adds (memberInto field) (fun s add => add s) k) fs adds)
    (distinct : (fs.map (·.1)).Nodup)
    (commute : adds.Pairwise fun f g => ∀ s, f s >>= g = g s >>= f) {s : σ} {x : α}
    (filled : adds.foldlM (fun s add => add s) empty = .ok s) (built : build? s = some x) :
    Recovers (Decoder.record empty field order build?) (k + 1) (.ofFields fs) x := by
  refine (Adds.members each distinct).mono ?_
  rintro _ ⟨ms, adds', rfl, moved, read⟩ n enough
  obtain ⟨m, left, rfl⟩ := exists_level enough
  have same : ms.foldlM (memberInto field m) empty = .ok s := by
    rw [read m left, ← filled]
    exact foldlM_perm moved commute empty
  rw [Decoder.record, same]
  simp [bind, Except.bind, orFault, Ending.fault?, built]

end EntityFilter.Decoder
