import Mathlib.Data.List.Perm.Subperm
import Mathlib.Data.List.Nodup

/-!
# Equality of shared nodes

A table has a node at each address, and the children of a node stand before it.  Two
nodes are the same if they have the same label and the same children, in order or as
a set; some nodes are the same as themselves only.

`equalFuel` compares sets by one inclusion and by their sizes.
-/

namespace CodebaseMemory
namespace Lib

/-- A node: children in order, members as a set, or a node that is only itself. -/
inductive DagNode (L : Type) where
  | ordered (label : L) (kids : List (Option Nat))
  | members (label : L) (kids : List (Option Nat))
  | own

section SharedNodes

variable {L : Type}

theorem forall₂_trans {α : Type} {R : α → α → Prop} (htrans : ∀ x y z, R x y → R y z → R x z)
    {xs ys zs : List α} (hxy : List.Forall₂ R xs ys) (hyz : List.Forall₂ R ys zs) :
    List.Forall₂ R xs zs := by
  induction hxy generalizing zs with
  | nil =>
      cases hyz
      exact .nil
  | cons hx _ ih =>
      obtain _ | ⟨hy, hrest⟩ := hyz
      exact .cons (htrans _ _ _ hx hy) (ih hrest)

@[simp] def DagNode.kids : DagNode L → List (Option Nat)
  | .ordered _ kids => kids
  | .members _ kids => kids
  | .own => []

/-- The children stand before their node. -/
def Down (table : List (DagNode L)) : Prop :=
  ∀ i (node : DagNode L), table[i]? = some node → ∀ k, some k ∈ node.kids → k < i

/-- Two nodes with the same label, whose children are related. -/
@[simp] def DagNode.Alike (R : Option Nat → Option Nat → Prop) : DagNode L → DagNode L → Prop
  | .ordered l ks, .ordered l' ks' => l = l' ∧ List.Forall₂ R ks ks'
  | .members l ms, .members l' ms' =>
      l = l' ∧ (∀ m ∈ ms, ∃ m' ∈ ms', R m m') ∧ ∀ m' ∈ ms', ∃ m ∈ ms, R m m'
  | _, _ => False

/-- The same, as far as so many layers show. -/
@[simp] def SameIn (table : List (DagNode L)) : Nat → Option Nat → Option Nat → Prop
  | 0, a, b => a = b
  | n + 1, a, b => a = b ∨ ∃ i j c d, a = some i ∧ b = some j ∧ table[i]? = some c ∧
      table[j]? = some d ∧ c.Alike (SameIn table n) d

def Same (table : List (DagNode L)) (a b : Option Nat) : Prop :=
  ∃ n, SameIn table n a b

variable {R S : Option Nat → Option Nat → Prop} {c d e : DagNode L}
variable {ks ks' : List (Option Nat)}
variable {node : DagNode L}
variable {eq : Option Nat → Option Nat → Bool}
variable {i n : Nat}

theorem forall₂_imp_mem (h : List.Forall₂ R ks ks') (himp : ∀ a ∈ ks, ∀ b ∈ ks', R a b → S a b) :
    List.Forall₂ S ks ks' := by
  induction h with
  | nil => exact .nil
  | cons hx _ ih =>
      exact .cons (himp _ List.mem_cons_self _ List.mem_cons_self hx)
        (ih fun a ha b hb => himp a (List.mem_cons_of_mem _ ha) b (List.mem_cons_of_mem _ hb))

theorem DagNode.Alike.imp_mem (h : c.Alike R d)
    (himp : ∀ a ∈ c.kids, ∀ b ∈ d.kids, R a b → S a b) : c.Alike S d := by
  cases c <;> cases d <;> simp only [DagNode.Alike] at h ⊢
  case ordered.ordered => exact ⟨h.1, forall₂_imp_mem h.2 himp⟩
  case members.members =>
    refine ⟨h.1, fun m hm => ?_, fun m' hm' => ?_⟩
    · obtain ⟨m', hm', hR⟩ := h.2.1 m hm
      exact ⟨m', hm', himp m hm m' hm' hR⟩
    · obtain ⟨m, hm, hR⟩ := h.2.2 m' hm'
      exact ⟨m, hm, himp m hm m' hm' hR⟩

theorem DagNode.Alike.mono (h : c.Alike R d) (himp : ∀ a b, R a b → S a b) : c.Alike S d :=
  h.imp_mem fun a _ b _ => himp a b

theorem DagNode.Alike.symm (h : c.Alike R d) (hsymm : ∀ a b, R a b → R b a) : d.Alike R c := by
  cases c <;> cases d <;> simp only [DagNode.Alike] at h ⊢
  case ordered.ordered => exact ⟨h.1.symm, (h.2.imp fun a b => hsymm a b).flip⟩
  case members.members =>
    refine ⟨h.1.symm, fun m hm => ?_, fun m hm => ?_⟩
    · obtain ⟨m', hm', hR⟩ := h.2.2 m hm
      exact ⟨m', hm', hsymm m' m hR⟩
    · obtain ⟨m', hm', hR⟩ := h.2.1 m hm
      exact ⟨m', hm', hsymm m m' hR⟩

theorem DagNode.Alike.trans (hcd : c.Alike R d) (hde : d.Alike R e)
    (htrans : ∀ x y z, R x y → R y z → R x z) : c.Alike R e := by
  cases c <;> cases d <;> cases e <;> simp only [DagNode.Alike] at hcd hde ⊢
  case ordered.ordered.ordered => exact ⟨hcd.1.trans hde.1, forall₂_trans htrans hcd.2 hde.2⟩
  case members.members.members =>
    refine ⟨hcd.1.trans hde.1, fun m hm => ?_, fun m hm => ?_⟩
    · obtain ⟨m', hm', hR⟩ := hcd.2.1 m hm
      obtain ⟨m'', hm'', hR'⟩ := hde.2.1 m' hm'
      exact ⟨m'', hm'', htrans _ _ _ hR hR'⟩
    · obtain ⟨m', hm', hR⟩ := hde.2.2 m hm
      obtain ⟨m'', hm'', hR'⟩ := hcd.2.2 m' hm'
      exact ⟨m'', hm'', htrans _ _ _ hR' hR⟩

variable {table : List (DagNode L)} {a b : Option Nat}

theorem SameIn.succ : ∀ {n : Nat} {a b : Option Nat}, SameIn table n a b →
    SameIn table (n + 1) a b := by
  intro n
  induction n with
  | zero => exact fun h => Or.inl h
  | succ n ih =>
      rintro a b (heq | ⟨i, j, c, d, ha, hb, hc, hd, halike⟩)
      · exact Or.inl heq
      · exact Or.inr ⟨i, j, c, d, ha, hb, hc, hd, halike.mono fun _ _ => ih⟩

theorem SameIn.mono {m : Nat} (h : SameIn table n a b) (hle : n ≤ m) : SameIn table m a b := by
  induction hle with
  | refl => exact h
  | step _ ih => exact ih.succ

theorem SameIn.symm : ∀ {n : Nat} {a b : Option Nat}, SameIn table n a b → SameIn table n b a := by
  intro n
  induction n with
  | zero => exact fun h => Eq.symm h
  | succ n ih =>
      rintro a b (rfl | ⟨i, j, c, d, ha, hb, hc, hd, halike⟩)
      · exact Or.inl rfl
      · exact Or.inr ⟨j, i, d, c, hb, ha, hd, hc, halike.symm fun _ _ => ih⟩

theorem SameIn.trans : ∀ {n : Nat} {x y z : Option Nat}, SameIn table n x y → SameIn table n y z →
    SameIn table n x z := by
  intro n
  induction n with
  | zero => exact fun h h' => Eq.trans h h'
  | succ n ih =>
      rintro x y z (rfl | ⟨i, j, c, d, rfl, rfl, hc, hd, halike⟩) h
      · exact h
      · rcases h with rfl | ⟨j', k, d', e, hj, hz, hd', he, halike'⟩
        · exact Or.inr ⟨i, j, c, d, rfl, rfl, hc, hd, halike⟩
        · obtain rfl := Option.some.inj hj
          obtain rfl := Option.some.inj (hd.symm.trans hd')
          exact Or.inr ⟨i, k, c, e, rfl, hz, hc, he, halike.trans halike' fun _ _ _ => ih⟩

theorem same_equivalence (table : List (DagNode L)) : Equivalence (Same table) where
  refl _ := ⟨0, rfl⟩
  symm := fun ⟨n, h⟩ => ⟨n, h.symm⟩
  trans := fun ⟨n, h⟩ ⟨m, h'⟩ =>
    ⟨max n m, (h.mono (Nat.le_max_left n m)).trans (h'.mono (Nat.le_max_right n m))⟩

theorem exists_layers {α : Type} {P : Nat → α → Prop} (hmono : ∀ n m x, P n x → n ≤ m → P m x)
    (l : List α) (h : ∀ x ∈ l, ∃ n, P n x) : ∃ n, ∀ x ∈ l, P n x := by
  induction l with
  | nil => exact ⟨0, fun x hx => absurd hx List.not_mem_nil⟩
  | cons x l ih =>
      obtain ⟨n, hn⟩ := ih fun y hy => h y (List.mem_cons_of_mem x hy)
      obtain ⟨m, hm⟩ := h x List.mem_cons_self
      refine ⟨max n m, fun y hy => ?_⟩
      rcases List.mem_cons.mp hy with rfl | hy
      · exact hmono m _ y hm (Nat.le_max_right n m)
      · exact hmono n _ y (hn y hy) (Nat.le_max_left n m)

theorem exists_layers_forall₂ (h : List.Forall₂ (Same table) ks ks') :
    ∃ n, List.Forall₂ (SameIn table n) ks ks' := by
  induction h with
  | nil => exact ⟨0, .nil⟩
  | cons hx _ ih =>
      obtain ⟨m, hm⟩ := hx
      obtain ⟨n, hn⟩ := ih
      exact ⟨max n m, .cons (hm.mono (Nat.le_max_right n m))
        (hn.imp fun _ _ h => h.mono (Nat.le_max_left n m))⟩

theorem DagNode.Alike.layers (h : c.Alike (Same table) d) : ∃ n, c.Alike (SameIn table n) d := by
  cases c <;> cases d <;> simp only [DagNode.Alike] at h ⊢
  case ordered.ordered =>
    obtain ⟨n, hn⟩ := exists_layers_forall₂ h.2
    exact ⟨n, h.1, hn⟩
  case members.members l ms l' ms' =>
    obtain ⟨hl, hleft, hright⟩ := h
    obtain ⟨n, hn⟩ := exists_layers (P := fun n m => ∃ m' ∈ ms', SameIn table n m m')
      (fun n k m ⟨m', hm', hsame⟩ hle => ⟨m', hm', hsame.mono hle⟩) ms fun m hm => by
        obtain ⟨m', hm', n, hsame⟩ := hleft m hm
        exact ⟨n, m', hm', hsame⟩
    obtain ⟨k, hk⟩ := exists_layers (P := fun n m' => ∃ m ∈ ms, SameIn table n m m')
      (fun n k m' ⟨m, hm, hsame⟩ hle => ⟨m, hm, hsame.mono hle⟩) ms' fun m' hm' => by
        obtain ⟨m, hm, n, hsame⟩ := hright m' hm'
        exact ⟨n, m, hm, hsame⟩
    refine ⟨max n k, hl, fun m hm => ?_, fun m' hm' => ?_⟩
    · obtain ⟨m', hm', hsame⟩ := hn m hm
      exact ⟨m', hm', hsame.mono (Nat.le_max_left n k)⟩
    · obtain ⟨m, hm, hsame⟩ := hk m' hm'
      exact ⟨m, hm, hsame.mono (Nat.le_max_right n k)⟩

theorem same_of_alike {j : Nat} (hc : table[i]? = some c) (hd : table[j]? = some d)
    (h : c.Alike (Same table) d) : Same table (some i) (some j) := by
  obtain ⟨n, hn⟩ := h.layers
  exact ⟨n + 1, Or.inr ⟨i, j, c, d, rfl, rfl, hc, hd, hn⟩⟩

section Comparison

variable [DecidableEq L]

/-- The comparison of two nodes; a set is in another of the same size. -/
@[simp] def DagNode.equal (eq : Option Nat → Option Nat → Bool) : DagNode L → DagNode L → Bool
  | .ordered l ks, .ordered l' ks' =>
      l == l' && ks.length == ks'.length && (ks.zip ks').all fun p => eq p.1 p.2
  | .members l ms, .members l' ms' =>
      l == l' && ms.length == ms'.length && ms.all fun m => ms'.any fun m' => eq m m'
  | _, _ => false

/-- The comparison at two addresses, with fuel for the layers. -/
@[simp] def equalFuel (table : List (DagNode L)) : Nat → Option Nat → Option Nat → Bool
  | 0, a, b => a == b
  | n + 1, a, b => a == b ||
      match a.bind (table[·]?), b.bind (table[·]?) with
      | some c, some d => c.equal (equalFuel table n) d
      | _, _ => false

theorem equalFuel_succ : equalFuel table (n + 1) a b = true ↔ a = b ∨
    ∃ i j c d, a = some i ∧ b = some j ∧ table[i]? = some c ∧ table[j]? = some d ∧
      c.equal (equalFuel table n) d = true := by
  rw [equalFuel, Bool.or_eq_true, beq_iff_eq]
  refine or_congr_right ?_
  cases a with
  | none => simp
  | some i =>
      cases b with
      | none => cases hc : table[i]? <;> simp [hc]
      | some j => cases hc : table[i]? <;> cases hd : table[j]? <;> simp [hc, hd]

theorem equalFuel_refl (n : Nat) (a : Option Nat) : equalFuel table n a a = true := by
  cases n with
  | zero => exact beq_self_eq_true a
  | succ n => exact equalFuel_succ.mpr (Or.inl rfl)

theorem zip_all_iff :
    (ks.length == ks'.length && (ks.zip ks').all fun p => eq p.1 p.2) = true ↔
      List.Forall₂ (fun a b => eq a b = true) ks ks' := by
  rw [List.forall₂_iff_zip, Bool.and_eq_true, beq_iff_eq, List.all_eq_true]
  exact and_congr_right fun _ => ⟨fun h a b hab => h (a, b) hab, fun h p hp => h hp⟩

theorem DagNode.equal_iff {c d : DagNode L} :
    c.equal eq d = true ↔
      (∃ l ks ks', c = .ordered l ks ∧ d = .ordered l ks' ∧
        List.Forall₂ (fun a b => eq a b = true) ks ks') ∨
      ∃ l ms ms', c = .members l ms ∧ d = .members l ms' ∧ ms.length = ms'.length ∧
        ∀ m ∈ ms, ∃ m' ∈ ms', eq m m' = true := by
  cases c with
  | own => simp [DagNode.equal]
  | ordered l ks =>
      cases d with
      | own => simp [DagNode.equal]
      | members l' ms' => simp [DagNode.equal]
      | ordered l' ks' =>
          rw [DagNode.equal, Bool.and_assoc, Bool.and_eq_true, zip_all_iff, beq_iff_eq]
          simp only [ordered.injEq, reduceCtorEq, false_and, exists_false, or_false]
          constructor
          · rintro ⟨rfl, h⟩
            exact ⟨l, ks, ks', ⟨rfl, rfl⟩, ⟨rfl, rfl⟩, h⟩
          · rintro ⟨_, _, _, ⟨rfl, rfl⟩, ⟨rfl, rfl⟩, h⟩
            exact ⟨rfl, h⟩
  | members l ms =>
      cases d with
      | own => simp [DagNode.equal]
      | ordered l' ks' => simp [DagNode.equal]
      | members l' ms' =>
          simp only [DagNode.equal, Bool.and_eq_true, beq_iff_eq, List.all_eq_true,
            List.any_eq_true, and_assoc, members.injEq, reduceCtorEq, false_and, exists_false, false_or]
          constructor
          · rintro ⟨rfl, h⟩
            exact ⟨l, ms, ms', rfl, rfl, rfl, rfl, h⟩
          · rintro ⟨_, _, _, rfl, rfl, rfl, rfl, h⟩
            exact ⟨rfl, h⟩

theorem equalFuel_trans (n : Nat) : ∀ {a b c : Option Nat}, equalFuel table n a b = true →
    equalFuel table n b c = true → equalFuel table n a c = true := by
  induction n with
  | zero =>
      intro a b c hab hbc
      rw [equalFuel, beq_iff_eq] at *
      exact hab.trans hbc
  | succ n ih =>
      intro a b c hab hbc
      rcases equalFuel_succ.mp hab with rfl | ⟨i, j, x, y, rfl, rfl, hx, hy, hxy⟩
      · exact hbc
      rcases equalFuel_succ.mp hbc with rfl | ⟨j', k, y', z, hj, rfl, hy', hz, hyz⟩
      · exact hab
      obtain rfl := Option.some.inj hj
      obtain rfl := Option.some.inj (hy.symm.trans hy')
      refine equalFuel_succ.mpr (Or.inr ⟨i, k, x, z, rfl, rfl, hx, hz, ?_⟩)
      rcases DagNode.equal_iff.mp hxy with
        ⟨l, ks, ks', rfl, rfl, hks⟩ | ⟨l, ms, ms', rfl, rfl, hl, hms⟩
      · rcases DagNode.equal_iff.mp hyz with ⟨_, _, ks'', heq, rfl, hks'⟩ | ⟨_, _, _, heq, _⟩
        · obtain ⟨rfl, rfl⟩ := DagNode.ordered.inj heq
          have hkids := @forall₂_trans _ (fun a b => equalFuel table n a b = true)
            (fun _ _ _ => ih) _ _ _ hks hks'
          exact DagNode.equal_iff.mpr (Or.inl ⟨l, ks, ks'', rfl, rfl, hkids⟩)
        · exact absurd heq (by simp)
      · rcases DagNode.equal_iff.mp hyz with ⟨_, _, _, heq, _⟩ | ⟨_, _, ms'', heq, rfl, hl', hms'⟩
        · exact absurd heq (by simp)
        · obtain ⟨rfl, rfl⟩ := DagNode.members.inj heq
          refine DagNode.equal_iff.mpr
            (Or.inr ⟨l, ms, ms'', rfl, rfl, hl.trans hl', fun m hm => ?_⟩)
          obtain ⟨m', hm', hmm'⟩ := hms m hm
          obtain ⟨m'', hm'', hmm''⟩ := hms' m' hm'
          exact ⟨m'', hm'', ih hmm' hmm''⟩

theorem DagNode.equal_congr {eq' : Option Nat → Option Nat → Bool} {c d : DagNode L}
    (h : ∀ k ∈ c.kids, ∀ b ∈ d.kids, eq k b = eq' k b) : c.equal eq d = c.equal eq' d := by
  cases c with
  | own => rfl
  | ordered l ks =>
      cases d with
      | own => rfl
      | members l' ms' => rfl
      | ordered l' ks' =>
          have hall : ((ks.zip ks').all fun p => eq p.1 p.2) =
              (ks.zip ks').all fun p => eq' p.1 p.2 := by
            rw [Bool.eq_iff_iff, List.all_eq_true, List.all_eq_true]
            refine forall₂_congr fun p hp => ?_
            obtain ⟨hleft, hright⟩ := List.of_mem_zip hp
            rw [h p.1 hleft p.2 hright]
          rw [DagNode.equal, DagNode.equal, hall]
  | members l ms =>
      cases d with
      | own => rfl
      | ordered l' ks' => rfl
      | members l' ms' =>
          have hall : (ms.all fun m => ms'.any fun m' => eq m m') =
              ms.all fun m => ms'.any fun m' => eq' m m' := by
            rw [Bool.eq_iff_iff, List.all_eq_true, List.all_eq_true]
            refine forall₂_congr fun m hm => ?_
            rw [List.any_eq_true, List.any_eq_true]
            refine exists_congr fun m' => and_congr_right fun hm' => ?_
            rw [h m hm m' hm']
          rw [DagNode.equal, DagNode.equal, hall]

theorem equalFuel_stable (hdown : Down table) (n : Nat) : ∀ {m : Nat} {a b : Option Nat},
    (∀ i, a = some i → i < n) → (∀ i, a = some i → i < m) →
      equalFuel table n a b = equalFuel table m a b := by
  induction n with
  | zero =>
      intro m a b ha _
      cases a with
      | none => cases m <;> simp [equalFuel]
      | some i => exact absurd (ha i rfl) (Nat.not_lt_zero i)
  | succ n ih =>
      intro m a b ha hm
      cases m with
      | zero =>
          cases a with
          | none => simp [equalFuel]
          | some i => exact absurd (hm i rfl) (Nat.not_lt_zero i)
      | succ m =>
          rw [Bool.eq_iff_iff, equalFuel_succ, equalFuel_succ]
          refine or_congr_right (exists_congr fun i => exists_congr fun j => exists_congr fun c =>
            exists_congr fun d => and_congr_right fun hi => and_congr_right fun hj =>
              and_congr_right fun hc => and_congr_right fun hd => ?_)
          have hin := ha i hi
          have him := hm i hi
          rw [DagNode.equal_congr fun k hk b _ => ih (fun x hx => ?_) fun x hx => ?_]
          · have hlt := hdown i c hc x (hx ▸ hk)
            omega
          · have hlt := hdown i c hc x (hx ▸ hk)
            omega

section Cover

variable {α : Type} {R : α → α → Prop} {xs ys : List α}

theorem subperm_of_covered (hR : Equivalence R) (hxs : xs.Pairwise fun x y => ¬ R x y)
    (h : ∀ x ∈ xs, ∃ y ∈ ys, R x y) :
    (xs.map (Quotient.mk ⟨R, hR⟩)).Subperm (ys.map (Quotient.mk ⟨R, hR⟩)) := by
  refine List.Nodup.subperm ?_ ?_
  · rw [List.Nodup, List.pairwise_map]
    exact hxs.imp fun hne heq => hne (Quotient.exact heq)
  · intro q hq
    obtain ⟨x, hx, rfl⟩ := List.mem_map.mp hq
    obtain ⟨y, hy, hxy⟩ := h x hx
    exact List.mem_map.mpr ⟨y, hy, Quotient.sound (hR.symm hxy)⟩

theorem length_le_of_covered (hR : Equivalence R) (hxs : xs.Pairwise fun x y => ¬ R x y)
    (h : ∀ x ∈ xs, ∃ y ∈ ys, R x y) : xs.length ≤ ys.length := by
  have hle := (subperm_of_covered hR hxs h).length_le
  rwa [List.length_map, List.length_map] at hle

theorem covered_back (hR : Equivalence R) (hxs : xs.Pairwise fun x y => ¬ R x y)
    (hlength : ys.length ≤ xs.length) (h : ∀ x ∈ xs, ∃ y ∈ ys, R x y) :
    ∀ y ∈ ys, ∃ x ∈ xs, R x y := by
  intro y hy
  have hperm := (subperm_of_covered hR hxs h).perm_of_length_le (by
    rwa [List.length_map, List.length_map])
  obtain ⟨x, hx, heq⟩ := List.mem_map.mp (hperm.mem_iff.mpr (List.mem_map_of_mem hy))
  exact ⟨x, hx, Quotient.exact heq⟩

end Cover

/-- No set has the same member twice. -/
def Unrepeated (table : List (DagNode L)) : Prop :=
  ∀ (i : Nat) (l : L) (ms : List (Option Nat)), table[i]? = some (DagNode.members l ms) →
    ms.Pairwise fun m m' => ¬ Same table m m'

theorem same_of_equalFuel (h : Unrepeated table) (n : Nat) : ∀ {a b : Option Nat},
    equalFuel table n a b = true → Same table a b := by
  induction n with
  | zero =>
      intro a b heq
      exact ⟨0, beq_iff_eq.mp heq⟩
  | succ n ih =>
      intro a b heq
      rcases equalFuel_succ.mp heq with rfl | ⟨i, j, c, d, rfl, rfl, hc, hd, hcd⟩
      · exact ⟨0, rfl⟩
      refine same_of_alike hc hd ?_
      rcases DagNode.equal_iff.mp hcd with
        ⟨l, ks, ks', rfl, rfl, hks⟩ | ⟨l, ms, ms', rfl, rfl, hl, hms⟩
      · exact ⟨rfl, hks.imp fun _ _ => ih⟩
      · have hin : ∀ m ∈ ms, ∃ m' ∈ ms', Same table m m' := by
          intro m hm
          obtain ⟨m', hm', hmm'⟩ := hms m hm
          exact ⟨m', hm', ih hmm'⟩
        exact ⟨rfl, hin,
          covered_back (same_equivalence table) (h i l ms hc) (Nat.le_of_eq hl.symm) hin⟩

theorem equalFuel_of_same (hdown : Down table) (h : Unrepeated table) (k : Nat) :
    ∀ {n : Nat} {a b : Option Nat}, SameIn table k a b → (∀ i, a = some i → i < n) →
      equalFuel table n a b = true := by
  induction k with
  | zero =>
      rintro n a _ rfl _
      exact equalFuel_refl n a
  | succ k ih =>
      rintro n a b (rfl | ⟨i, j, c, d, rfl, rfl, hc, hd, halike⟩) hn
      · exact equalFuel_refl n a
      have hlt := hn i rfl
      obtain ⟨n, rfl⟩ : ∃ m, n = m + 1 := Nat.exists_eq_succ_of_ne_zero (by omega)
      have hkids : ∀ m ∈ c.kids, ∀ m', SameIn table k m m' → equalFuel table n m m' = true := by
        intro m hm m' hsame
        refine ih hsame fun x hx => ?_
        have hx := hdown i c hc x (hx ▸ hm)
        omega
      refine equalFuel_succ.mpr (Or.inr ⟨i, j, c, d, rfl, rfl, hc, hd, DagNode.equal_iff.mpr ?_⟩)
      cases c with
      | own => cases d <;> exact absurd halike not_false
      | ordered l ks =>
          cases d with
          | own => exact absurd halike not_false
          | members l' ms' => exact absurd halike not_false
          | ordered l' ks' =>
              obtain ⟨rfl, hks⟩ := halike
              refine Or.inl ⟨l, ks, ks', rfl, rfl, ?_⟩
              exact forall₂_imp_mem hks fun a ha b _ => hkids a ha b
      | members l ms =>
          cases d with
          | own => exact absurd halike not_false
          | ordered l' ks' => exact absurd halike not_false
          | members l' ms' =>
              obtain ⟨rfl, hin, hback⟩ := halike
              have hsame : ∀ m ∈ ms, ∃ m' ∈ ms', Same table m m' := fun m hm =>
                (hin m hm).imp fun _ h => ⟨h.1, k, h.2⟩
              have hsame' : ∀ m' ∈ ms', ∃ m ∈ ms, Same table m' m := fun m' hm' =>
                (hback m' hm').imp fun _ h => ⟨h.1, k, h.2.symm⟩
              have hle := length_le_of_covered (same_equivalence table) (h i l ms hc) hsame
              have hge := length_le_of_covered (same_equivalence table) (h j l ms' hd) hsame'
              refine Or.inr ⟨l, ms, ms', rfl, rfl, Nat.le_antisymm hle hge, fun m hm => ?_⟩
              obtain ⟨m', hm', hmm'⟩ := hin m hm
              exact ⟨m', hm', hkids m hm m' hmm'⟩

theorem equalFuel_iff_same (hdown : Down table) (h : Unrepeated table)
    (hn : ∀ i, a = some i → i < n) : equalFuel table n a b = true ↔ Same table a b :=
  ⟨same_of_equalFuel h n, fun ⟨k, hk⟩ => equalFuel_of_same hdown h k hk hn⟩

end Comparison

def Holds (table : List (DagNode L)) (a : Option Nat) : Prop :=
  ∀ i, a = some i → i < table.length

theorem eq_of_same (ha : ¬ Holds table a) (h : Same table a b) : a = b := by
  obtain ⟨n, hn⟩ := h
  cases n with
  | zero => exact hn
  | succ n =>
      rcases hn with heq | ⟨i, _, c, _, rfl, _, hc, _⟩
      · exact heq
      · refine absurd (fun x hx => ?_) ha
        obtain rfl := Option.some.inj hx
        exact (List.getElem?_eq_some_iff.mp hc).1

theorem Down.holds_kid (h : Down table) (hi : table[i]? = some node) {k : Option Nat}
    (hk : k ∈ node.kids) : Holds table k := by
  rintro x rfl
  exact Nat.lt_trans (h i node hi x hk) (List.getElem?_eq_some_iff.mp hi).1

theorem Down.append (h : Down table) (hkids : ∀ k ∈ node.kids, Holds table k) :
    Down (table ++ [node]) := by
  intro i c hc k hk
  rcases Nat.lt_or_ge i table.length with hlt | hge
  · rw [List.getElem?_append_left hlt] at hc
    exact h i c hc k hk
  · rw [List.getElem?_append_right hge, List.getElem?_singleton] at hc
    split at hc
    · next hi =>
        obtain rfl := Option.some.inj hc
        have hlt := hkids _ hk k rfl
        omega
    · exact absurd hc (by simp)

theorem sameIn_append (h : Down table) (rest : List (DagNode L)) (n : Nat) : ∀ {a b : Option Nat},
    Holds table a → Holds table b → (SameIn (table ++ rest) n a b ↔ SameIn table n a b) := by
  induction n with
  | zero => exact fun _ _ => Iff.rfl
  | succ n ih =>
      intro a b ha hb
      refine or_congr_right (exists_congr fun i => exists_congr fun j => exists_congr fun c =>
        exists_congr fun d => and_congr_right fun hi => and_congr_right fun hj => ?_)
      rw [List.getElem?_append_left (ha i hi), List.getElem?_append_left (hb j hj)]
      refine and_congr_right fun hc => and_congr_right fun hd => ?_
      exact ⟨fun halike => halike.imp_mem fun k hk k' hk' =>
          (ih (h.holds_kid hc hk) (h.holds_kid hd hk')).mp,
        fun halike => halike.imp_mem fun k hk k' hk' =>
          (ih (h.holds_kid hc hk) (h.holds_kid hd hk')).mpr⟩

theorem same_append (h : Down table) (rest : List (DagNode L)) (ha : Holds table a)
    (hb : Holds table b) : Same (table ++ rest) a b ↔ Same table a b :=
  exists_congr fun n => sameIn_append h rest n ha hb

theorem equalFuel_append [DecidableEq L] (h : Down table) (rest : List (DagNode L)) (n : Nat) :
    ∀ {a b : Option Nat}, Holds table a → Holds table b →
      equalFuel (table ++ rest) n a b = equalFuel table n a b := by
  induction n with
  | zero => exact fun _ _ => rfl
  | succ n ih =>
      intro a b ha hb
      rw [Bool.eq_iff_iff, equalFuel_succ, equalFuel_succ]
      refine or_congr_right (exists_congr fun i => exists_congr fun j => exists_congr fun c =>
        exists_congr fun d => and_congr_right fun hi => and_congr_right fun hj => ?_)
      rw [List.getElem?_append_left (ha i hi), List.getElem?_append_left (hb j hj)]
      refine and_congr_right fun hc => and_congr_right fun hd => ?_
      rw [DagNode.equal_congr fun k hk k' hk' => ih (h.holds_kid hc hk) (h.holds_kid hd hk')]

theorem equalFuel_own [DecidableEq L] (hi : table[i]? = some .own)
    (h : equalFuel table n (some i) b = true) : b = some i := by
  cases n with
  | zero => exact (beq_iff_eq.mp h).symm
  | succ n =>
      rcases equalFuel_succ.mp h with heq | ⟨j, _, c, d, hj, _, hc, _, hcd⟩
      · exact heq.symm
      · obtain rfl := Option.some.inj hj
        obtain rfl := Option.some.inj (hi.symm.trans hc)
        exact absurd hcd (by simp [DagNode.equal])

theorem same_own (hi : table[i]? = some .own) (h : Same table (some i) b) : b = some i := by
  obtain ⟨n, hn⟩ := h
  cases n with
  | zero => exact hn.symm
  | succ n =>
      rcases hn with heq | ⟨j, _, c, d, hj, _, hc, _, hcd⟩
      · exact heq.symm
      · obtain rfl := Option.some.inj hj
        obtain rfl := Option.some.inj (hi.symm.trans hc)
        cases d <;> exact absurd hcd not_false

theorem Unrepeated.append (h : Unrepeated table) (hdown : Down table)
    (hkids : ∀ k ∈ node.kids, Holds table k)
    (hnode : ∀ l ms, node = .members l ms → ms.Pairwise fun m m' => ¬ Same table m m') :
    Unrepeated (table ++ [node]) := by
  intro i l ms hi
  have hall : ms.Pairwise (fun m m' => ¬ Same table m m') ∧ ∀ m ∈ ms, Holds table m := by
    rcases Nat.lt_or_ge i table.length with hlt | hge
    · rw [List.getElem?_append_left hlt] at hi
      exact ⟨h i l ms hi, fun m hm => hdown.holds_kid hi hm⟩
    · rw [List.getElem?_append_right hge, List.getElem?_singleton] at hi
      split at hi
      · obtain rfl := Option.some.inj hi
        exact ⟨hnode l ms rfl, hkids⟩
      · exact absurd hi (by simp)
  refine hall.1.imp_of_mem fun hm hm' hne hsame => hne ?_
  exact (same_append hdown [node] (hall.2 _ hm) (hall.2 _ hm')).mp hsame

end SharedNodes

end Lib
end CodebaseMemory
