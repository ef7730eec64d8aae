import Mathlib

/-!
# Layers of a dependency relation

The nodes of a dependency relation come in layers: the first one holds the nodes that need nothing,
and each further one the nodes all of whose needs are in the layers before. A layer is listed in the
order of its nodes, so that the layers are determined (`Layers.unique`). When the needs of a node
are nodes of smaller rank, every node is in one of the layers (`Layers.mem_flatten`), and in no two
of them (`Layers.nodup_flatten`).

The layer of a node is its height over the nodes that need nothing (`Layers.isHeight`). It says how
long the chains are that lead down from the node along its needs: none is longer
(`IsHeight.length_chain_le`), and one is as long (`IsHeight.exists_chain`).
-/

set_option autoImplicit false

namespace Runvane.Library

variable {α : Type} {node : α → Prop} {needs : α → α → Prop}

/-! ### Heights -/

/-- The height of a node over those that need nothing: above all its needs, and right above one of
them. -/
structure IsHeight (node : α → Prop) (needs : α → α → Prop) (height : α → ℕ) : Prop where
  lt : ∀ x y, node x → needs x y → node y ∧ height y < height x
  exists_eq : ∀ x n, node x → height x = n + 1 → ∃ y, needs x y ∧ height y = n

variable {x : α} {done layer : List α} {layers : List (List α)} {i : ℕ}

/-- A chain down from a node is no longer than its height. -/
theorem IsHeight.length_chain_le {height : α → ℕ} (h : IsHeight node needs height) (hx : node x)
    {chain : List α} (hchain : (x :: chain).IsChain needs) : chain.length ≤ height x := by
  induction chain generalizing x with
  | nil => exact Nat.zero_le _
  | cons y chain ih =>
    obtain ⟨hneed, hchain⟩ := List.isChain_cons_cons.mp hchain
    obtain ⟨hy, hlt⟩ := h.lt x y hx hneed
    have hle := ih hy hchain
    rw [List.length_cons]
    omega

/-- One chain down from a node is as long as its height. -/
theorem IsHeight.exists_chain {height : α → ℕ} (h : IsHeight node needs height) (hx : node x) :
    ∃ chain, (x :: chain).IsChain needs ∧ chain.length = height x ∧ ∀ y ∈ chain, node y := by
  induction hn : height x generalizing x with
  | zero => exact ⟨[], List.isChain_singleton x, rfl, by simp⟩
  | succ n ih =>
    obtain ⟨y, hneed, hy⟩ := h.exists_eq x n hx hn
    have hnode := (h.lt x y hx hneed).1
    obtain ⟨chain, hchain, hlength, hnodes⟩ := ih hnode hy
    refine ⟨y :: chain, List.isChain_cons_cons.mpr ⟨hneed, hchain⟩, by simp [hlength], ?_⟩
    exact List.forall_mem_cons.mpr ⟨hnode, hnodes⟩

/-! ### Layers -/

variable [LinearOrder α]

/-- The layer after the nodes in `done`: the other nodes whose needs are all done, in order. -/
structure IsLayer (node : α → Prop) (needs : α → α → Prop) (done layer : List α) : Prop where
  sorted : layer.Pairwise (· ≤ ·)
  nodup : layer.Nodup
  mem_iff : ∀ x, x ∈ layer ↔ node x ∧ x ∉ done ∧ ∀ y, needs x y → y ∈ done

/-- The layers after the nodes in `done`, up to the first one that is empty. -/
inductive Layers (node : α → Prop) (needs : α → α → Prop) : List α → List (List α) → Prop
  | done {done : List α} (h : IsLayer node needs done []) : Layers node needs done []
  | layer {done layer : List α} {rest : List (List α)} (h : IsLayer node needs done layer)
      (hne : layer ≠ []) (hrest : Layers node needs (done ++ layer) rest) :
      Layers node needs done (layer :: rest)

/-- A layer is determined by what is done before it. -/
theorem IsLayer.unique {layer' : List α} (h : IsLayer node needs done layer)
    (h' : IsLayer node needs done layer') : layer = layer' := by
  have hperm : layer.Perm layer' := (List.perm_ext_iff_of_nodup h.nodup h'.nodup).mpr fun x ↦ by
    rw [h.mem_iff, h'.mem_iff]
  exact hperm.eq_of_pairwise' h.sorted h'.sorted

/-- The layers are determined. -/
theorem Layers.unique {layers' : List (List α)} (h : Layers node needs done layers)
    (h' : Layers node needs done layers') : layers = layers' := by
  induction h generalizing layers' with
  | done h =>
    cases h' with
    | done => rfl
    | layer h' hne => exact absurd (h'.unique h) hne
  | layer h hne _ ih =>
    cases h' with
    | done h' => exact absurd (h.unique h') hne
    | layer h' _ hrest =>
      obtain rfl := h.unique h'
      rw [ih hrest]

/-- Every node is done or in one of the layers. -/
theorem Layers.mem_flatten (h : Layers node needs done layers) (rank : α → ℕ)
    (hneeds : ∀ x y, node x → needs x y → node y ∧ rank y < rank x) (hx : node x) :
    x ∈ done ++ layers.flatten := by
  induction h with
  | @done done h =>
    rw [List.flatten_nil, List.append_nil]
    -- a node of least rank that is not done would be in the empty layer
    induction hn : rank x using Nat.strong_induction_on generalizing x with
    | _ n ih =>
      subst hn
      by_contra hout
      refine List.not_mem_nil ((h.mem_iff x).mpr ⟨hx, hout, fun y hy ↦ ?_⟩)
      obtain ⟨hnode, hlt⟩ := hneeds x y hx hy
      exact ih (rank y) hlt hnode rfl
  | layer h hne _ ih => rwa [List.flatten_cons, ← List.append_assoc]

/-- No node is in two layers. -/
theorem Layers.nodup_flatten (h : Layers node needs done layers) (hdone : done.Nodup) :
    (done ++ layers.flatten).Nodup := by
  induction h with
  | done h => simpa using hdone
  | layer h hne _ ih =>
    rw [List.flatten_cons, ← List.append_assoc]
    refine ih (hdone.append h.nodup fun x hx hlayer ↦ ?_)
    exact ((h.mem_iff x).mp hlayer).2.1 hx

/-- The layers hold nodes only. -/
theorem Layers.node_of_mem (h : Layers node needs done layers) (hx : x ∈ layers.flatten) :
    node x := by
  induction h with
  | done h => simp at hx
  | layer h hne _ ih =>
    rcases List.mem_append.mp hx with hx | hx
    · exact ((h.mem_iff x).mp hx).1
    · exact ih hx

/-! ### Needs and layers -/

/-- Every need of a node of a layer is done or in a layer before. -/
theorem Layers.needs_before (h : Layers node needs done layers) (hi : layers[i]? = some layer)
    {y : α} (hx : x ∈ layer) (hy : needs x y) :
    y ∈ done ∨ ∃ j < i, ∃ before, layers[j]? = some before ∧ y ∈ before := by
  induction h generalizing i with
  | done h => cases hi
  | @layer done first rest h hne _ ih =>
    cases i with
    | zero =>
      obtain rfl : first = layer := by simpa using hi
      exact .inl (((h.mem_iff x).mp hx).2.2 y hy)
    | succ i =>
      rcases ih (by simpa using hi) with hdone | ⟨j, hj, before, hbefore, hmem⟩
      · rcases List.mem_append.mp hdone with hdone | hfirst
        · exact .inl hdone
        · exact .inr ⟨0, Nat.succ_pos i, first, rfl, hfirst⟩
      · exact .inr ⟨j + 1, Nat.succ_lt_succ hj, before, by simpa using hbefore, hmem⟩

/-- A node of a further layer has a need in the layer right before. -/
theorem Layers.exists_need (h : Layers node needs done layers) (hi : layers[i + 1]? = some layer)
    (hx : x ∈ layer) : ∃ before, layers[i]? = some before ∧ ∃ y ∈ before, needs x y := by
  induction h generalizing i with
  | done h => cases hi
  | @layer done first rest h hne hrest ih =>
    cases i with
    | zero =>
      refine ⟨first, rfl, ?_⟩
      cases hrest with
      | done hlast => cases hi
      | @layer _ second _ hsecond =>
        obtain rfl : second = layer := by simpa using hi
        obtain ⟨hnode, hout, hneeds⟩ := (hsecond.mem_iff x).mp hx
        rw [List.mem_append, not_or] at hout
        -- otherwise the node would be in the layer before
        by_contra hnone
        refine hout.2 ((h.mem_iff x).mpr ⟨hnode, hout.1, fun y hy ↦ ?_⟩)
        refine (List.mem_append.mp (hneeds y hy)).resolve_right fun hfirst ↦ hnone ?_
        exact ⟨y, hfirst, hy⟩
    | succ i =>
      obtain ⟨before, hbefore, hneed⟩ := ih (by simpa using hi)
      exact ⟨before, by simpa using hbefore, hneed⟩

/-- The needs of a node stand before it in the list of all layers. -/
theorem Layers.needs_front (h : Layers node needs done layers) {front back : List α} {y : α}
    (hsplit : layers.flatten = front ++ x :: back) (hy : needs x y) : y ∈ done ++ front := by
  induction h generalizing front with
  | done h => simp at hsplit
  | @layer done first rest h hne _ ih =>
    rw [List.flatten_cons, List.append_eq_append_iff] at hsplit
    rcases hsplit with ⟨more, rfl, hrest⟩ | ⟨more, hfirst, hback⟩
    · rw [← List.append_assoc]
      exact ih hrest
    · cases more with
      | nil =>
        rw [List.append_nil] at hfirst
        subst hfirst
        simpa using @ih [] (by simpa using hback.symm)
      | cons z more =>
        obtain ⟨rfl, -⟩ := List.cons.inj hback
        have hx : x ∈ first := by simp [hfirst]
        exact List.mem_append_left _ (((h.mem_iff x).mp hx).2.2 y hy)

/-- No layer is empty. -/
theorem Layers.ne_nil (h : Layers node needs done layers) (hlayer : layer ∈ layers) :
    layer ≠ [] := by
  induction h with
  | done h => cases hlayer
  | layer h hne _ ih =>
    rcases List.mem_cons.mp hlayer with rfl | hrest
    · exact hne
    · exact ih hrest

/-- There are no more layers than nodes in them. -/
theorem Layers.length_le (h : Layers node needs done layers) :
    layers.length ≤ layers.flatten.length := by
  induction h with
  | done h => exact Nat.zero_le _
  | layer h hne _ ih =>
    have hpos := List.length_pos_of_ne_nil hne
    rw [List.flatten_cons, List.length_append, List.length_cons]
    omega

/-! ### The layer of a node -/

/-- The index of the first layer with a node. -/
def layerOf (layers : List (List α)) (x : α) : ℕ := layers.findIdx (x ∈ ·)

theorem exists_layerOf (hx : x ∈ layers.flatten) :
    ∃ layer, layers[layerOf layers x]? = some layer ∧ x ∈ layer := by
  obtain ⟨layer, hlayer, hmem⟩ := List.mem_flatten.mp hx
  have hlt : layerOf layers x < layers.length :=
    List.findIdx_lt_length_of_exists ⟨layer, hlayer, by simpa using hmem⟩
  have hfound : x ∈ layers[layerOf layers x] :=
    of_decide_eq_true (@List.findIdx_getElem _ (fun layer ↦ decide (x ∈ layer)) layers hlt)
  exact ⟨layers[layerOf layers x], List.getElem?_eq_getElem hlt, hfound⟩

/-- In layers without repetitions a node is in no other layer. -/
theorem layerOf_eq (hnodup : layers.flatten.Nodup) (hi : layers[i]? = some layer) (hx : x ∈ layer) :
    layerOf layers x = i := by
  obtain ⟨hlt, rfl⟩ := List.getElem?_eq_some_iff.mp hi
  obtain ⟨first, hfirst, hmem⟩ := exists_layerOf
    (List.mem_flatten.mpr ⟨_, List.getElem_mem hlt, hx⟩)
  obtain ⟨hlt', rfl⟩ := List.getElem?_eq_some_iff.mp hfirst
  have hdisjoint := List.pairwise_iff_getElem.mp (List.nodup_flatten.mp hnodup).2
  rcases Nat.lt_trichotomy (layerOf layers x) i with hbefore | heq | hafter
  · exact absurd hx (hdisjoint _ _ hlt' hlt hbefore hmem)
  · exact heq
  · exact absurd hmem (hdisjoint _ _ hlt hlt' hafter hx)

/-- The layers are the heights, when every node is in one. -/
theorem Layers.isHeight (h : Layers node needs [] layers)
    (hall : ∀ x, node x → x ∈ layers.flatten) : IsHeight node needs (layerOf layers) := by
  have hnodup : layers.flatten.Nodup := h.nodup_flatten List.nodup_nil
  constructor
  · intro x y hx hy
    obtain ⟨layer, hlayer, hmem⟩ := exists_layerOf (hall x hx)
    rcases h.needs_before hlayer hmem hy with hdone | ⟨j, hj, before, hbefore, hmem⟩
    · cases hdone
    · rw [layerOf_eq hnodup hbefore hmem]
      refine ⟨h.node_of_mem (List.mem_flatten.mpr ⟨before, ?_, hmem⟩), hj⟩
      exact List.mem_of_getElem? hbefore
  · intro x n hx hn
    obtain ⟨layer, hlayer, hmem⟩ := exists_layerOf (hall x hx)
    rw [hn] at hlayer
    obtain ⟨before, hbefore, y, hy, hneed⟩ := h.exists_need hlayer hmem
    exact ⟨y, hneed, layerOf_eq hnodup hbefore hy⟩

end Runvane.Library
