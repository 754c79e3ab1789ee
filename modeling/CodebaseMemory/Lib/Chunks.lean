import Mathlib.Data.List.Basic

/-!
# Input that arrives in pieces

A reader is a function on the bytes received so far, which asks for more or gives its
result.  It is stable when a result it has given does not change as more bytes come.

`readChunks` calls a reader from the start after each piece, with a buffer of a fixed
size.  For a stable reader the result is a function of the stream alone, and how the
stream was cut does not matter (`readChunks_eq`).
-/

namespace CodebaseMemory
namespace Lib

section Chunks

variable {β ρ : Type} {read : List β → Option ρ}

/-- A result stays the same when more input comes. -/
def Stable (read : List β → Option ρ) : Prop :=
  ∀ (input more : List β) (r : ρ), read input = some r → read (input ++ more) = some r

/-- Ask the reader after each piece; `buffer` is what has been received, never more than `size`.
An empty piece is the end of the input. -/
def readChunks [DecidableEq β] (read : List β → Option ρ) (size : Nat) :
    List β → List (List β) → Option ρ
  | _, [] => none
  | buffer, chunk :: rest =>
    if chunk = [] then none
    else
      match read ((buffer ++ chunk).take size) with
      | some r => some r
      | none => readChunks read size ((buffer ++ chunk).take size) rest

theorem take_take_append (size : Nat) (a b : List β) :
    (a.take size ++ b).take size = (a ++ b).take size := by
  rw [List.take_append, List.take_append, List.take_take, List.length_take, Nat.min_self]
  congr 2
  omega

theorem readChunks_eq [DecidableEq β] (hstable : Stable read) (size : Nat)
    (buffer : List β) (chunks : List (List β)) (hchunks : ∀ c ∈ chunks, c ≠ [])
    (hbuffer : read (buffer.take size) = none) :
    readChunks read size buffer chunks = read ((buffer ++ chunks.flatten).take size) := by
  induction chunks generalizing buffer with
  | nil => simpa [readChunks] using hbuffer.symm
  | cons chunk rest ih =>
    have hne : chunk ≠ [] := hchunks chunk List.mem_cons_self
    rw [readChunks, if_neg hne, List.flatten_cons, ← List.append_assoc,
      ← take_take_append size (buffer ++ chunk)]
    cases hr : read ((buffer ++ chunk).take size) with
    | some r =>
      -- the first pieces fill the buffer or leave room; in both cases it only grows
      have hgrow : ∃ more, ((buffer ++ chunk).take size ++ rest.flatten).take size =
          (buffer ++ chunk).take size ++ more := by
        refine ⟨rest.flatten.take (size - ((buffer ++ chunk).take size).length), ?_⟩
        rw [List.take_append, List.take_take, Nat.min_self]
      obtain ⟨more, hmore⟩ := hgrow
      rw [hmore, hstable _ more r hr]
    | none =>
      have hrest := ih ((buffer ++ chunk).take size)
        (fun c hc => hchunks c (List.mem_cons_of_mem _ hc))
        (by rwa [List.take_take, Nat.min_self])
      simpa using hrest

end Chunks

end Lib
end CodebaseMemory
