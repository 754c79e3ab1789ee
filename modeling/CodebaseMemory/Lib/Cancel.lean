import Mathlib.Data.List.Basic

/-!
# Steps that watch a flag

A long job is made of steps that return a code, zero for success.  Another thread may
raise a flag at any time to ask the job to stop; it is never lowered.  Steps read the
flag as they work and stop when they see it, and between the steps the job reads it
itself.

The time at which the flag is raised is the number of reads that miss it.  A job is
then a function of what its reads return, and the place where it stops is found by
counting reads.

`Reports` says of a job that it tells its caller: it leaves the files alone, it returns
zero exactly when none of its reads saw the flag and none of its own steps failed, and
otherwise it returns another code.  The rules below build such jobs from smaller ones.
-/

namespace CodebaseMemory
namespace Lib

/-- What the successive reads of a flag return, once it may be raised by another thread. -/
structure CancelFlag where
  raised : Nat → Bool
  mono : ∀ i j, i ≤ j → raised i = true → raised j = true

/-- Whether one of `n` reads sees the flag, when `c` reads have been made before. -/
def CancelFlag.sees (flag : CancelFlag) (c : Nat) : Nat → Bool
  | 0 => false
  | n + 1 => flag.raised (c + n)

/-- A job in progress: the reads made, whether a step has failed or has seen the flag, and
the files it works on. -/
structure Progress (F : Type) where
  reads : Nat
  failed : Bool
  file : F

abbrev Stage (F α : Type) := StateM (Progress F) α

/-- The code of a step that was asked to stop. -/
def notFound : Int := -1

section Stages

variable {F : Type} (flag : CancelFlag)

/-- One read of the flag between two steps. -/
def CancelFlag.check : Stage F Bool := fun s =>
  (flag.raised s.reads,
    { s with reads := s.reads + 1, failed := s.failed || flag.raised s.reads })

/-- A step that reads the flag `n` times, and ends with the code `own` when it is not
asked to stop. -/
def CancelFlag.step (n : Nat) (own : Int) : Stage F Int := fun s =>
  let rc := if flag.sees s.reads n then notFound else own
  (rc, { s with reads := s.reads + n, failed := s.failed || rc != 0 })

/-- `rc = m(); if (rc != 0) return rc;` before the rest. -/
def Stage.andThen (m rest : Stage F Int) : Stage F Int := do
  let rc ← m
  if rc ≠ 0 then pure rc else rest

/-- A step whose code is not looked at. -/
def Stage.ignored (m : Stage F Int) : Stage F Int := do
  let _ ← m
  pure 0

/-- A read of the flag as a step of its own. -/
def CancelFlag.cancelCode : Stage F Int := do
  if ← flag.check then pure notFound else pure 0

/-- `rc = m(); if (check_cancel(p)) rc = CBM_NOT_FOUND;` -/
def CancelFlag.heed (m : Stage F Int) : Stage F Int := do
  let rc ← m
  if ← flag.check then pure notFound else pure rc

/-- A job that makes `n` reads, has a failing step of its own exactly when `own` is set,
and tells its caller about both. -/
structure Reports (n : Nat) (own : Bool) (m : Stage F Int) : Prop where
  file : ∀ s, (m s).2.file = s.file
  done : ∀ s, (flag.sees s.reads n || own) = false →
    m s = ((0 : Int), { s with reads := s.reads + n })
  stopped : ∀ s, (flag.sees s.reads n || own) = true → (m s).1 ≠ 0 ∧ (m s).2.failed = true

end Stages

section Reads

variable {flag : CancelFlag}

theorem CancelFlag.sees_zero (c : Nat) : flag.sees c 0 = false := rfl

theorem CancelFlag.sees_one (c : Nat) : flag.sees c 1 = flag.raised c := rfl

theorem CancelFlag.sees_add (c m n : Nat) :
    flag.sees c (m + n) = (flag.sees c m || flag.sees (c + m) n) := by
  cases n with
  | zero => simp [CancelFlag.sees]
  | succ n =>
    cases m with
    | zero => simp [CancelFlag.sees]
    | succ m =>
      have h : flag.raised (c + m) = true → flag.raised (c + (m + 1) + n) = true :=
        flag.mono _ _ (by omega)
      change flag.raised (c + (m + 1 + n)) =
        (flag.raised (c + m) || flag.raised (c + (m + 1) + n))
      rw [← Nat.add_assoc c (m + 1) n]
      cases hr : flag.raised (c + m) with
      | false => rfl
      | true => rw [h hr]; rfl

theorem CancelFlag.raised_of_sees {c n i : Nat} (h : flag.sees c n = true) (hi : c + n ≤ i) :
    flag.raised i = true := by
  cases n with
  | zero => simp [CancelFlag.sees] at h
  | succ n => exact flag.mono (c + n) i (by omega) h

end Reads

section Rules

variable {F : Type} {flag : CancelFlag}

theorem Stage.bind_apply {α β : Type} (m : Stage F α) (k : α → Stage F β) (s : Progress F) :
    (m >>= k) s = k (m s).1 (m s).2 := rfl

theorem Stage.pure_apply {α : Type} (a : α) (s : Progress F) :
    (pure a : Stage F α) s = (a, s) := rfl

theorem Stage.andThen_apply (m rest : Stage F Int) (s : Progress F) :
    m.andThen rest s = if (m s).1 ≠ 0 then m s else rest (m s).2 := by
  simp only [Stage.andThen, Stage.bind_apply]
  split <;> rfl

theorem Stage.andThen_assoc (a b c : Stage F Int) :
    (a.andThen b).andThen c = a.andThen (b.andThen c) := by
  funext s
  simp only [Stage.andThen_apply]
  by_cases h : (a s).1 = 0 <;> simp [h]

theorem Stage.ignored_apply (m : Stage F Int) (s : Progress F) :
    m.ignored s = ((0 : Int), (m s).2) := rfl

theorem CancelFlag.cancelCode_apply (s : Progress F) :
    flag.cancelCode s =
      (if flag.raised s.reads then notFound else 0,
        { s with reads := s.reads + 1, failed := s.failed || flag.raised s.reads }) := by
  simp only [CancelFlag.cancelCode, Stage.bind_apply]
  by_cases h : (flag.check s).1 = true
  · rw [if_pos h, if_pos (show flag.raised s.reads = true from h)]; rfl
  · rw [if_neg h, if_neg (show ¬ flag.raised s.reads = true from h)]; rfl

theorem CancelFlag.heed_apply (m : Stage F Int) (s : Progress F) :
    flag.heed m s =
      (if flag.raised (m s).2.reads then notFound else (m s).1,
        { (m s).2 with
          reads := (m s).2.reads + 1
          failed := (m s).2.failed || flag.raised (m s).2.reads }) := by
  simp only [CancelFlag.heed, Stage.bind_apply]
  by_cases h : (flag.check (m s).2).1 = true
  · rw [if_pos h, if_pos (show flag.raised (m s).2.reads = true from h)]; rfl
  · rw [if_neg h, if_neg (show ¬ flag.raised (m s).2.reads = true from h)]; rfl

theorem CancelFlag.heed_raised {m : Stage F Int} {s : Progress F}
    (h : flag.raised (m s).2.reads = true) :
    (flag.heed m s).1 ≠ 0 ∧ (flag.heed m s).2.failed = true := by
  simp [CancelFlag.heed_apply, h, notFound]

theorem Reports.step (n : Nat) (own : Int) :
    Reports flag n (own != 0) (flag.step n own : Stage F Int) where
  file := fun s => rfl
  done := fun s h => by
    obtain ⟨hs, ho⟩ := Bool.or_eq_false_iff.mp h
    have : own = 0 := by simpa using ho
    simp [CancelFlag.step, hs, this]
  stopped := fun s h => by
    have hrc : (if flag.sees s.reads n then notFound else own) ≠ 0 := by
      split
      · decide
      · next hs => simpa [hs] using h
    exact ⟨hrc, by simp [CancelFlag.step, bne_iff_ne.mpr hrc]⟩

theorem Reports.cancelCode : Reports flag 1 false (flag.cancelCode : Stage F Int) where
  file := fun s => by rw [CancelFlag.cancelCode_apply]
  done := fun s h => by
    have hr : flag.raised s.reads = false := by simpa [CancelFlag.sees_one] using h
    simp [CancelFlag.cancelCode_apply, hr]
  stopped := fun s h => by
    have hr : flag.raised s.reads = true := by simpa [CancelFlag.sees_one] using h
    simp [CancelFlag.cancelCode_apply, hr, notFound]

theorem Reports.andThen {n k : Nat} {a b : Bool} {m rest : Stage F Int}
    (hm : Reports flag n a m) (hr : Reports flag k b rest) :
    Reports flag (n + k) (a || b) (m.andThen rest) where
  file := fun s => by
    rw [Stage.andThen_apply]
    split
    · exact hm.file s
    · rw [hr.file, hm.file]
  done := fun s h => by
    rw [CancelFlag.sees_add] at h
    have h₁ : (flag.sees s.reads n || a) = false := by simp_all
    have h₂ : (flag.sees (s.reads + n) k || b) = false := by simp_all
    rw [Stage.andThen_apply, hm.done s h₁]
    simpa [Nat.add_assoc] using hr.done { s with reads := s.reads + n } h₂
  stopped := fun s h => by
    rw [Stage.andThen_apply]
    cases h₁ : flag.sees s.reads n || a with
    | true => rw [if_pos (hm.stopped s h₁).1]; exact hm.stopped s h₁
    | false =>
      rw [hm.done s h₁]
      have h₂ : (flag.sees (s.reads + n) k || b) = true := by
        rw [CancelFlag.sees_add] at h
        simp_all
      simpa using hr.stopped { s with reads := s.reads + n } h₂

theorem Reports.heed {n : Nat} {a : Bool} {m : Stage F Int} (hm : Reports flag n a m) :
    Reports flag (n + 1) a (flag.heed m) where
  file := fun s => by rw [CancelFlag.heed_apply]; exact hm.file s
  done := fun s h => by
    rw [CancelFlag.sees_add] at h
    have h₁ : (flag.sees s.reads n || a) = false := by simp_all
    have hr : flag.raised (s.reads + n) = false := by simp_all [CancelFlag.sees_one]
    simp [CancelFlag.heed_apply, hm.done s h₁, hr, Nat.add_assoc]
  stopped := fun s h => by
    rw [CancelFlag.heed_apply]
    cases h₁ : flag.sees s.reads n || a with
    | true =>
      obtain ⟨hne, hf⟩ := hm.stopped s h₁
      refine ⟨?_, by simp [hf]⟩
      cases flag.raised (m s).2.reads with
      | true => simp [notFound]
      | false => simpa using hne
    | false =>
      have hr : flag.raised (s.reads + n) = true := by
        rw [CancelFlag.sees_add] at h
        simp_all [CancelFlag.sees_one]
      simp [hm.done s h₁, hr, notFound]

theorem Reports.heed_ignored (n : Nat) :
    Reports flag (n + 1) false (flag.heed (flag.step n 0 : Stage F Int).ignored) where
  file := fun s => by rw [CancelFlag.heed_apply]; rfl
  done := fun s h => by
    rw [CancelFlag.sees_add] at h
    have hs : flag.sees s.reads n = false := by simp_all
    have hr : flag.raised (s.reads + n) = false := by simp_all [CancelFlag.sees_one]
    simp [CancelFlag.heed_apply, Stage.ignored_apply, CancelFlag.step, hs, hr, Nat.add_assoc]
  stopped := fun s h => by
    have hr : flag.raised (s.reads + n) = true := by
      rw [Bool.or_false] at h
      exact h
    simp [CancelFlag.heed_apply, Stage.ignored_apply, CancelFlag.step, hr, notFound]

end Rules

end Lib
end CodebaseMemory
