import CodebaseMemory.Http.Head
import CodebaseMemory.Lib.Chunks

/-!
# Heads do not depend on packet boundaries

`cbm_httpd_read_request` calls `cbm_http_parse_head` from the start after each `recv`, on a
buffer of `CBM_HTTP_MAX_HEAD` bytes.  The scan of the parser stops at the first byte that
decides, and the rest of the parser reads only what the scan has passed.  So a result that
is not `CBM_HTTP_NEED_MORE` is the result for every longer prefix (`parseHead_stable`),
and the request does not depend on how its bytes arrived (`readHead_packets`).
-/

namespace CodebaseMemory
namespace Http

open Lib
open Sqlite (bytesOf)

/-- The head loop of `cbm_httpd_read_request`; `none` when the peer is gone before a result. -/
def readHead (packets : List Bytes) : Option (Except Nat Head) :=
  readChunks parseHead maxHead [] packets

section Scan

variable {data more : Bytes}

theorem getD_append_left (data more : Bytes) {i : Nat} (h : i < data.length) :
    (data ++ more).getD i 0 = data.getD i 0 :=
  List.getD_append data more 0 i h

theorem scanLoop_append (n i : Nat) (h : i + n ≤ data.length) :
    scanLoop (data ++ more) n i = scanLoop data n i := by
  induction n generalizing i with
  | zero => rfl
  | succ n ih =>
    have hrest := ih (i + 1) (by omega)
    simp only [scanLoop, hrest, getD_append_left data more (show i < data.length by omega),
      getD_append_left data more (show i - 1 < data.length by omega),
      getD_append_left data more (show i - 2 < data.length by omega),
      getD_append_left data more (show i - 3 < data.length by omega)]

theorem scanLoop_add (n m i : Nat) :
    scanLoop data (n + m) i =
      match scanLoop data n i with
      | .unfinished => scanLoop data m (i + n)
      | r => r := by
  induction n generalizing i with
  | zero => simp [scanLoop]
  | succ n ih =>
    have hrest := ih (i + 1)
    rw [show i + 1 + n = i + (n + 1) by omega] at hrest
    rw [show n + 1 + m = (n + m) + 1 by omega]
    simp only [scanLoop]
    split
    · rfl
    · split
      · rfl
      · split
        · rfl
        · exact hrest

theorem scanLoop_stop_le {n i stop : Nat} (h : scanLoop data n i = .head stop) : stop ≤ i + n := by
  induction n generalizing i with
  | zero => cases h
  | succ n ih =>
    simp only [scanLoop] at h
    split at h
    · cases h
    · split at h
      · cases h
      · split at h
        · cases h
          omega
        · have := ih h
          omega

end Scan

theorem scan_stable {data more : Bytes} {r : Scan}
    (h : scanLoop data (min data.length maxHead) 0 = r) (hr : r ≠ .unfinished) :
    scanLoop (data ++ more) (min (data ++ more).length maxHead) 0 = r := by
  obtain ⟨m, hm⟩ : ∃ m, min (data ++ more).length maxHead = min data.length maxHead + m := by
    refine ⟨min (data ++ more).length maxHead - min data.length maxHead, ?_⟩
    simp only [List.length_append]
    omega
  have hle : 0 + min data.length maxHead ≤ data.length := by omega
  rw [hm, scanLoop_add, scanLoop_append _ _ hle, h]
  cases r with
  | unfinished => exact absurd rfl hr
  | bad => rfl
  | head stop => rfl

theorem scan_full {data more : Bytes} (hlen : maxHead ≤ data.length) :
    scanLoop (data ++ more) (min (data ++ more).length maxHead) 0 =
      scanLoop data (min data.length maxHead) 0 := by
  have h₁ : min data.length maxHead = maxHead := by omega
  have h₂ : min (data ++ more).length maxHead = maxHead := by
    simp only [List.length_append]
    omega
  rw [h₁, h₂, scanLoop_append _ _ (by omega)]

theorem parseHead_stable : Stable parseHead := by
  intro data more r h
  unfold parseHead at h ⊢
  cases hs : scanLoop data (min data.length maxHead) 0 with
  | bad =>
    rw [hs] at h
    rw [scan_stable hs (by simp)]
    exact h
  | unfinished =>
    rw [hs] at h
    by_cases hlen : maxHead ≤ data.length
    · rw [scan_full hlen, hs]
      have hlen' : maxHead ≤ (data ++ more).length := by
        rw [List.length_append]
        omega
      simp only [if_pos hlen] at h
      simpa only [if_pos hlen'] using h
    · simp [hlen] at h
  | head stop =>
    rw [hs] at h
    have hstop : stop ≤ data.length := by
      have := scanLoop_stop_le hs
      omega
    rw [scan_stable hs (by simp)]
    simpa [List.take_append_of_le_length hstop] using h

theorem readHead_eq (packets : List Bytes) (hpackets : ∀ p ∈ packets, p ≠ []) :
    readHead packets = parseHead (packets.flatten.take maxHead) := by
  have h := readChunks_eq parseHead_stable maxHead [] packets hpackets rfl
  simpa [readHead] using h

/-- For every stream and every two ways of cutting it into packets, the head loop ends with
the same status, or with the same request, content length and body offset, or is left waiting
in both; and a result for a prefix of a stream is the result for every longer prefix. -/
theorem readHead_packets (packets packets' : List Bytes)
    (hpackets : ∀ p ∈ packets, p ≠ []) (hpackets' : ∀ p ∈ packets', p ≠ [])
    (hstream : packets.flatten = packets'.flatten) :
    readHead packets = readHead packets' ∧
      ∀ (received more : Bytes) (r : Except Nat Head),
        parseHead received = some r → parseHead (received ++ more) = some r := by
  refine ⟨?_, parseHead_stable⟩
  rw [readHead_eq packets hpackets, readHead_eq packets' hpackets', hstream]

/-- A request cut inside its last line end, and in one piece. -/
theorem readHead_cut_at_end :
    readHead [bytesOf "GET / HTTP/1.1\r\n\r", bytesOf "\nx"] =
      readHead [bytesOf "GET / HTTP/1.1\r\n\r\nx"] :=
  (readHead_packets _ _ (by decide) (by decide) (by decide)).1

end Http
end CodebaseMemory
