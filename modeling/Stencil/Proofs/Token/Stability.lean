import Stencil.Proofs.Token.Append
import Stencil.Proofs.Token.Tiling

namespace Stencil

theorem Token.slice_append {cs : List Char} {t : Token} (ds : List Char) (h : t.past ≤ cs.length) :
    t.slice (cs ++ ds).toArray = t.slice cs.toArray := by
  have hle : t.past ≤ (cs ++ ds).length := Nat.le_trans h (List.prefix_append cs ds).length_le
  have hlen : t.past - t.first ≤ (cs.drop t.first).length := by simp; omega
  rw [slice, slice, if_pos (by simpa using hle), if_pos (by simpa using h)]
  simp [List.drop_append, List.take_append_of_le_length hlen]

namespace Scanner

-- What is recorded of a token: its text, the zones that are open behind it, and whether a line
-- begins there.
structure Snapshot where
  token     : Token
  content   : String
  zones     : List Zone
  lineStart : Bool
  deriving DecidableEq

def snapshot (chars : Array Char) (t : Token) (s : Scanner) : Snapshot :=
  ⟨t, t.content chars, s.zones, s.lineStart⟩

def snapshots (text : String) : List Snapshot :=
  (start text).run.map fun (t, s) => snapshot text.toList.toArray t s

variable {s s' : Scanner} {t : Token} {ds : List Char}

theorem map_token_snapshots (text : String) :
    (snapshots text).map (·.token) = Token.scan text := by
  simp [snapshots, snapshot, Token.scan, tokens, Function.comp_def]

-- Up to the last token, a scan goes the same way in a longer text.
theorem run_append (s : Scanner) (ds : List Char) :
    s.run.dropLast.map (fun (t, s') => (t, s'.append ds)) <+: (s.append ds).run := by
  induction s using run.induct
  case case1 s h => simp [run_of_next?_eq_none h]
  case case2 s t s' h ih =>
    by_cases hr : s'.rest = []
    case pos =>
      -- the token is the last one
      simp [run_of_next?_eq_some h, run_of_next?_eq_none (next?_eq_none_iff.mpr hr)]
    case neg =>
      have hn : s'.run ≠ [] := by
        intro hn
        exact hr (tokens_eq_nil_iff.mp (by rw [tokens, hn, List.map_nil]))
      rw [run_of_next?_eq_some h, run_of_next?_eq_some (next?_append ds h (.inl hr)),
        List.dropLast_cons_of_ne_nil hn, List.map_cons]
      exact List.prefix_cons_inj _ |>.mpr ih

theorem past_le_of_mem_run {text : String} {p : Token × Scanner} (h : p ∈ (start text).run) :
    p.1.past ≤ text.toList.length := by
  obtain ⟨us, v, s₁, w, s₂, e, step⟩ := exists_steps_of_mem (List.mem_map_of_mem h)
  have hr : text.toList = v ++ (w ++ s₂.rest) := e.rest.trans (by rw [step.rest])
  rw [step.past_eq (e.behind (behind_start text)), hr]
  simp

theorem start_append (text more : String) :
    start (text ++ more) = (start text).append more.toList := by
  simp [start, append]

-- Only the last token of a text can change when text is added.
theorem snapshots_stable (text more : String) :
    (Token.scan text).dropLast <+: Token.scan (text ++ more) ∧
    (snapshots text).dropLast <+: snapshots (text ++ more) := by
  have hs : (snapshots text).dropLast <+: snapshots (text ++ more) := by
    have h := ((start text).run_append more.toList).map
      fun (t, s) => snapshot (text ++ more).toList.toArray t s
    rw [← start_append, List.map_map] at h
    rw [snapshots, ← List.map_dropLast]
    refine (List.map_congr_left fun p hp => ?_) ▸ h
    have hp := past_le_of_mem_run (List.dropLast_subset _ hp)
    simp [snapshot, append, Token.content, Token.slice_append _ hp]
  refine ⟨?tokens, hs⟩
  case tokens =>
    rw [← map_token_snapshots, ← map_token_snapshots, ← List.map_dropLast]
    exact hs.map _

-- The last token can change: this name turns into an article.
example :
    ((Token.scan "[an").map (·.kind) = [.bracketOpen, .name]) ∧
    (Token.scan ("[an" ++ "]")).map (·.kind) = [.bracketOpen, .article, .bracketClose] := by
  decide +kernel

end Scanner
end Stencil
