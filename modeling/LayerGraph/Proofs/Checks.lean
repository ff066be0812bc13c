import Mathlib.Data.List.Basic
import Mathlib.Data.List.Forall2

/-!
# Checks over lists

A check over a list passes when it passes for every item, and fails with the fault of
some item.
-/

set_option autoImplicit false

namespace LayerGraph

variable {ε α β : Type}

theorem except_bind_eq_ok_iff {x : Except ε α} {f : α → Except ε β} {b : β} :
    (x >>= f) = .ok b ↔ ∃ a, x = .ok a ∧ f a = .ok b := by
  cases x <;> simp [bind, Except.bind]

theorem except_bind_eq_error_iff {x : Except ε α} {f : α → Except ε β} {e : ε} :
    (x >>= f) = .error e ↔ x = .error e ∨ ∃ a, x = .ok a ∧ f a = .error e := by
  cases x <;> simp [bind, Except.bind]

theorem check_bind_eq_ok_iff {x y : Except ε Unit} :
    (x >>= fun _ => y) = .ok () ↔ x = .ok () ∧ y = .ok () := by
  cases x <;> simp [bind, Except.bind]

theorem ite_error_eq_ok_iff {p : Prop} [Decidable p] {e : ε} {x : Except ε α} {a : α} :
    (if p then .error e else x) = .ok a ↔ ¬ p ∧ x = .ok a := by
  by_cases hp : p <;> simp [hp]

theorem forM_eq_ok_iff {f : α → Except ε Unit} {l : List α} :
    l.forM f = .ok () ↔ ∀ x ∈ l, f x = .ok () := by
  induction l with
  | nil => simp [pure, Except.pure]
  | cons x rest ih =>
    have hcons : (x :: rest).forM f = (f x >>= fun _ => rest.forM f) := rfl
    rw [hcons, except_bind_eq_ok_iff, List.forall_mem_cons, ih]
    exact ⟨fun ⟨(), hx, hrest⟩ => ⟨hx, hrest⟩, fun ⟨hx, hrest⟩ => ⟨(), hx, hrest⟩⟩

theorem mapM_eq_ok_iff {f : α → Except ε β} {l : List α} {r : List β} :
    l.mapM f = .ok r ↔ l.map f = r.map .ok := by
  induction l generalizing r with
  | nil => cases r <;> simp [pure, Except.pure]
  | cons x rest ih =>
    simp only [List.mapM_cons, except_bind_eq_ok_iff, ih, pure, Except.pure, Except.ok.injEq]
    cases r with
    | nil => simp
    | cons y r => simp

theorem exists_eq_map_some {l : List (Option α)} (h : ∀ x ∈ l, x.isSome = true) :
    ∃ r : List α, l = r.map some := by
  induction l with
  | nil => exact ⟨[], rfl⟩
  | cons x rest ih =>
    obtain ⟨a, rfl⟩ := Option.isSome_iff_exists.1 (h x List.mem_cons_self)
    obtain ⟨r, rfl⟩ := ih fun y hy => h y (List.mem_cons_of_mem _ hy)
    exact ⟨a :: r, rfl⟩

theorem map_eq_map_filterMap {f : α → Option β} {l : List α} (h : ∀ x ∈ l, (f x).isSome = true) :
    l.map f = (l.filterMap f).map some := by
  induction l with
  | nil => rfl
  | cons x rest ih =>
    obtain ⟨b, hb⟩ := Option.isSome_iff_exists.1 (h x List.mem_cons_self)
    rw [List.map_cons, List.filterMap_cons_some hb, List.map_cons, hb,
      ih fun y hy => h y (List.mem_cons_of_mem _ hy)]

theorem mem_of_mapM_eq_ok {f : α → Except ε β} {l : List α} {r : List β} (h : l.mapM f = .ok r)
    {b : β} : b ∈ r ↔ ∃ a ∈ l, f a = .ok b := by
  have hmap := mapM_eq_ok_iff.1 h
  have hinj : Function.Injective (Except.ok : β → Except ε β) := fun _ _ => Except.ok.inj
  rw [← List.mem_map_of_injective hinj, ← hmap, List.mem_map]

theorem exists_mapM_eq_ok {f : α → Except ε β} {l : List α} (h : ∀ a ∈ l, ∃ b, f a = .ok b) :
    ∃ r, l.mapM f = .ok r := by
  induction l with
  | nil => exact ⟨[], rfl⟩
  | cons a rest ih =>
    obtain ⟨b, hb⟩ := h a List.mem_cons_self
    obtain ⟨r, hr⟩ := ih fun x hx => h x (List.mem_cons_of_mem _ hx)
    exact ⟨b :: r, by rw [List.mapM_cons, hb, hr]; rfl⟩

theorem map_eq_map_of_mapM {γ : Type} {f : α → Except ε β} {l : List α} {r : List β} {x : β → γ}
    {y : α → γ} (h : l.mapM f = .ok r) (hxy : ∀ a b, f a = .ok b → x b = y a) :
    r.map x = l.map y := by
  have hmap := mapM_eq_ok_iff.1 h
  induction l generalizing r with
  | nil =>
    obtain rfl := List.map_eq_nil_iff.1 hmap.symm
    rfl
  | cons a l ih =>
    obtain ⟨b, r, rfl, hb, hr⟩ := List.map_eq_cons_iff.1 hmap.symm
    rw [List.map_cons, List.map_cons, hxy a b hb.symm, ih (mapM_eq_ok_iff.2 hr.symm) hr.symm]

/-- What is found at every place of a list, matched with what is known of it. -/
theorem exists_matched {δ γ : Type} {places : List α} {known : α → Option δ}
    {found : α → Option β} {x : β → γ} {y : δ → γ} {ds : List δ}
    (hd : places.map known = ds.map some)
    (h : ∀ i d, known i = some d → ∃ b, found i = some b ∧ x b = y d) :
    ∃ bs : List β, places.map found = bs.map some ∧ bs.map x = ds.map y := by
  induction places generalizing ds with
  | nil => exact ⟨[], by simp_all⟩
  | cons i rest ih =>
    cases ds with
    | nil => simp at hd
    | cons d ds =>
      obtain ⟨hi, hrest⟩ := List.cons.inj hd
      obtain ⟨b, hb, he⟩ := h i d hi
      obtain ⟨bs, hmap, hext⟩ := ih hrest
      exact ⟨b :: bs, by simp [hb, hmap], by simp [he, hext]⟩

theorem mapM_eq_ok_of_map_some {known : α → Option β} {f : α → Except ε β} {l : List α}
    {r : List β} (h : l.map known = r.map some) (hf : ∀ a b, known a = some b → f a = .ok b) :
    l.mapM f = .ok r := by
  rw [mapM_eq_ok_iff]
  induction l generalizing r with
  | nil => simp_all
  | cons a rest ih =>
    cases r with
    | nil => simp at h
    | cons b r =>
      obtain ⟨ha, hrest⟩ := List.cons.inj h
      rw [List.map_cons, List.map_cons, hf a b ha, ih hrest]

/-- A place of a list is known by what a key of its item is, when no key comes twice. -/
theorem index_unique_of_nodup {key : α → β} {l : List α} (hn : (l.map key).Nodup) {i j : Nat}
    {a b : α} (hi : l[i]? = some a) (hj : l[j]? = some b) (h : key a = key b) : i = j := by
  apply (List.getElem?_inj _ hn).1
  · rw [List.getElem?_map, List.getElem?_map, hi, hj, Option.map_some, Option.map_some, h]
  · simpa using (List.getElem?_eq_some_iff.1 hi).1

/-- Items of two lists that are related by what three passes make of them. -/
theorem forall₂_of_maps {γ δ ε' : Type} {as : List α} {bs : List β} {cs : List γ} {ds : List δ}
    {f : α → Option β} {k : β → Except ε γ} {m : γ → Except ε' δ} (hf : as.map f = bs.map some)
    (hk : bs.map k = cs.map .ok) (hm : cs.map m = ds.map .ok) :
    List.Forall₂ (fun a d => ∃ b c, f a = some b ∧ k b = .ok c ∧ m c = .ok d) as ds := by
  induction as generalizing bs cs ds with
  | nil =>
    obtain rfl := List.map_eq_nil_iff.1 hf.symm
    obtain rfl := List.map_eq_nil_iff.1 hk.symm
    obtain rfl := List.map_eq_nil_iff.1 hm.symm
    exact .nil
  | cons a as ih =>
    obtain ⟨b, bs, rfl, hb, hf⟩ := List.map_eq_cons_iff.1 hf.symm
    obtain ⟨c, cs, rfl, hc, hk⟩ := List.map_eq_cons_iff.1 hk.symm
    obtain ⟨d, ds, rfl, hd, hm⟩ := List.map_eq_cons_iff.1 hm.symm
    exact .cons ⟨b, c, hb.symm, hc.symm, hd.symm⟩ (ih hf.symm hk.symm hm.symm)

theorem exists_of_forM_eq_error {f : α → Except ε Unit} {l : List α} {e : ε}
    (h : l.forM f = .error e) : ∃ x ∈ l, f x = .error e := by
  induction l with
  | nil => cases h
  | cons x rest ih =>
    have hcons : (x :: rest).forM f = (f x >>= fun _ => rest.forM f) := rfl
    rw [hcons, except_bind_eq_error_iff] at h
    rcases h with h | ⟨_, _, h⟩
    · exact ⟨x, by simp, h⟩
    · obtain ⟨y, hy, he⟩ := ih h
      exact ⟨y, by simp [hy], he⟩

theorem exists_of_mapM_eq_error {f : α → Except ε β} {l : List α} {e : ε}
    (h : l.mapM f = .error e) : ∃ x ∈ l, f x = .error e := by
  induction l with
  | nil => cases h
  | cons x rest ih =>
    rw [List.mapM_cons, except_bind_eq_error_iff] at h
    rcases h with h | ⟨_, _, h⟩
    · exact ⟨x, by simp, h⟩
    · rcases except_bind_eq_error_iff.1 h with h | ⟨_, _, h⟩
      · obtain ⟨y, hy, he⟩ := ih h
        exact ⟨y, by simp [hy], he⟩
      · cases h

theorem exists_of_foldlM_eq_error {f : β → α → Except ε β} {l : List α} {b : β} {e : ε}
    (h : l.foldlM f b = .error e) : ∃ c, ∃ x ∈ l, f c x = .error e := by
  induction l generalizing b with
  | nil => cases h
  | cons x rest ih =>
    rw [List.foldlM_cons, except_bind_eq_error_iff] at h
    rcases h with h | ⟨c, _, h⟩
    · exact ⟨b, x, by simp, h⟩
    · obtain ⟨c, y, hy, he⟩ := ih h
      exact ⟨c, y, by simp [hy], he⟩

/-- What every step of a fold keeps, the fold keeps. -/
theorem foldlM_keeps {P : β → Prop} {f : β → α → Except ε β}
    (hstep : ∀ b a next, P b → f b a = .ok next → P next) {l : List α} {b result : β}
    (h : l.foldlM f b = .ok result) (hb : P b) : P result := by
  induction l generalizing b with
  | nil =>
    cases h
    exact hb
  | cons a rest ih =>
    rw [List.foldlM_cons, except_bind_eq_ok_iff] at h
    obtain ⟨next, hnext, hrest⟩ := h
    exact ih hrest (hstep b a next hb hnext)

theorem eq_ok_get {x : Except ε α} (h : x.toOption.isSome = true) : x = .ok (x.toOption.get h) := by
  cases x with
  | ok a => rfl
  | error e => cases h

end LayerGraph
