import SeaOfNodes.Proofs.Graph.Built

/-!
Graphs that grow: `Extends` says that only nodes were added. The types that a list of nodes has
(`Typed`) are kept, as everything is that nodes have.
-/
namespace SeaOfNodes

namespace Graph

variable {g g' g0 : Graph} {id x y : NodeId} {node : Node}

/-! ### Errors -/

def Clean (g : Graph) : Prop := ∀ x node, g.get? x = some node → node.op.isError = false

instance (g : Graph) : Decidable g.Clean :=
  decidable_of_iff (g.ids.all fun x => (g.get? x).all fun node => !node.op.isError) <| by
    simp only [List.all_eq_true, Option.all_eq_true, Bool.not_eq_true']
    exact ⟨fun h x node hn => h x (mem_ids hn) node hn, fun h x _ => h x⟩

theorem Keeps.clean (h : Keeps g g') (hc : g'.Clean) : g.Clean := by
  intro x node hn
  obtain ⟨node', hn', hop, -⟩ := h.node hn
  exact hop ▸ hc x node' hn'

theorem Clean.not_error (h : g.Clean) : ¬ g.At x fun op _ => op.isError = true := by
  rintro ⟨node, hn, hop⟩
  simp [h x node hn] at hop

/-! ### New nodes -/

namespace Extends

theorem refl (g : Graph) : Extends g g := ⟨fun h => ⟨_, h⟩, fun _ => rfl, fun _ => rfl, fun _ => rfl⟩

theorem trans {g'' : Graph} (h1 : Extends g g') (h2 : Extends g' g'') : Extends g g'' where
  node hn := by
    obtain ⟨us, hus⟩ := h1.node hn
    obtain ⟨vs, hvs⟩ := h2.node hus
    exact ⟨vs, hvs⟩
  control hx := (h2.control (h1.keeps.has hx)).trans (h1.control hx)
  memory hx := (h2.memory (h1.keeps.has hx)).trans (h1.memory hx)
  phiRegion hx := (h2.phiRegion (h1.keeps.has hx)).trans (h1.phiRegion hx)

theorem enters (h : Extends g0 g) (he : Enters g g') : Extends g0 g' where
  node hn := by
    obtain ⟨us, hus⟩ := h.node hn
    obtain ⟨vs, hvs, -⟩ := he.node hus
    exact ⟨vs, hvs⟩
  control hx := by rw [he.control, h.control hx]
  memory hx := by rw [he.memory, h.memory hx]
  phiRegion hx := by rw [he.phiRegion, h.phiRegion hx]

theorem attachMemory {e : MemoryEffect} (h : Extends g0 g) (hid : ¬ g0.Has id)
    (ha : g.attachMemory id e = .ok g') : Extends g0 g' := by
  refine enters ?_ (attachMemory_spec ha).1
  refine ⟨h.node, h.control, ?_, h.phiRegion⟩
  intro y hy
  rw [getElem?_insert_id, if_neg fun he : y = id => hid (he ▸ hy), h.memory hy]

end Extends

/-! ### Types of nodes -/

variable {xs : List NodeId} {t : Ty} {ts : List Ty}

/-- The types of nodes. -/
def Typed (g : Graph) (xs : List NodeId) (ts : List Ty) : Prop :=
  List.Forall₂ (fun x t => g.ty x = .ok t) xs ts

theorem Typed.mapM (h : g.Typed xs ts) : xs.mapM g.ty = .ok ts := by
  induction h with
  | nil => rfl
  | cons hx _ ih =>
    rw [List.mapM_cons, hx, ih]
    rfl

theorem Typed.of_mapM (h : xs.mapM g.ty = .ok ts) : g.Typed xs ts := by
  induction xs generalizing ts with
  | nil =>
    cases h
    exact .nil
  | cons x xs ih =>
    rw [List.mapM_cons] at h
    obtain ⟨t, ht, h⟩ := bind_eq_ok_iff.1 h
    obtain ⟨us, hus, h⟩ := bind_eq_ok_iff.1 h
    cases h
    exact .cons ht (ih hus)

theorem Typed.forall (h : g.Typed xs ts) {P : Ty → Prop} (hP : ∀ x ∈ xs, g.At x fun _ t => P t) :
    ∀ t ∈ ts, P t := by
  induction h with
  | nil => exact List.forall_mem_nil _
  | cons hx _ ih =>
    rw [List.forall_mem_cons] at hP ⊢
    obtain ⟨node, hn, hnode⟩ := hP.1
    cases (ty_of_get? hn).symm.trans hx
    exact ⟨hnode, ih hP.2⟩

theorem Typed.at (h : g.Typed xs ts) : ∀ x ∈ xs, g.At x fun _ t => t ∈ ts := by
  induction h with
  | nil => exact List.forall_mem_nil _
  | cons hx _ ih =>
    obtain ⟨node, hn, rfl⟩ := ty_eq_ok_iff.1 hx
    exact List.forall_mem_cons.2 ⟨⟨node, hn, .head _⟩, fun x hx => (ih x hx).mono fun _ _ => .tail _⟩

theorem Typed.getElem? (h : g.Typed xs ts) {position : Nat} (ht : ts[position]? = some t) :
    ∃ y, xs[position]? = some y ∧ g.ty y = .ok t := by
  induction h generalizing position with
  | nil => contradiction
  | cons hx _ ih =>
    cases position with
    | zero =>
      cases ht
      exact ⟨_, rfl, hx⟩
    | succ position => exact ih ht

theorem Typed.mem (h : g.Typed xs ts) (ht : t ∈ ts) : ∃ x ∈ xs, g.At x fun _ ty => ty = t := by
  obtain ⟨i, hi⟩ := List.getElem?_of_mem ht
  obtain ⟨x, hx, hty⟩ := h.getElem? hi
  obtain ⟨node, hn, rfl⟩ := ty_eq_ok_iff.1 hty
  exact ⟨x, List.mem_of_getElem? hx, node, hn, rfl⟩

theorem exists_typed (h : ∀ x ∈ xs, g.Has x) : ∃ ts, g.Typed xs ts := by
  induction xs with
  | nil => exact ⟨[], .nil⟩
  | cons x xs ih =>
    obtain ⟨⟨node, hn⟩, hrest⟩ := List.forall_mem_cons.1 h
    obtain ⟨ts, hts⟩ := ih hrest
    exact ⟨node.ty :: ts, .cons (ty_of_get? hn) hts⟩

end Graph

end SeaOfNodes
