import Stencil.Proofs.Render.Move
import Stencil.Proofs.Render.Success
import Stencil.Proofs.Symbol.OfJson
import Stencil.Proofs.Template.Complete

namespace Stencil

open Grammar

namespace Grammar

variable {names : List String}

-- What stands in `[path?|..]` before the alternatives.
def Head.asking (names : List String) : Head :=
  ⟨[], names.map String.toList, true, [], []⟩

theorem Head.fits_asking (hn : names ≠ []) (hs : ∀ name ∈ names, Segment name.toList) :
    (Head.asking names).Fits where
  lead        := .nil
  path_ne_nil := by simpa [Head.asking] using hn
  path        := by simpa [Head.asking] using hs
  arguments   := nofun
  trail       := .nil

theorem lastLine_of_not_mem {w : List Char} (h : '\n' ∉ w) : lastLine w = w := by
  simpa [lastLine] using lastLine_append (v := []) h

theorem Segment.not_mem_newline {w : List Char} (h : Segment w) : '\n' ∉ w :=
  fun hm => by simpa [isSpace] using (h.plain _ hm).1

theorem Head.not_mem_newline_asking (hs : ∀ name ∈ names, Segment name.toList) :
    '\n' ∉ (Head.asking names).spell := by
  cases names
  case nil => simp [Head.asking, Head.spell]
  case cons name names =>
    have h := (List.forall_mem_cons.mp hs)
    have hnames : ∀ w ∈ names, '\n' ∉ w.toList := fun w hw => (h.2 w hw).not_mem_newline
    simpa [Head.asking, Head.spell, Ahead.intercalate_cons] using ⟨h.1.not_mem_newline, hnames⟩

def yesNo : List (List Piece) :=
  [[.text "yes".toList], [.text "no".toList]]

theorem toList_asking (names : List String) :
    ("[" ++ Node.dotted names ++ "?|yes|no]").toList =
    (Piece.block (.asking names) yesNo).spell := by
  simp [Piece.spell, Head.spell, Head.asking, Node.dotted, yesNo, spellAlternatives, spellAll,
    escape]

theorem flush_asking (hs : ∀ name ∈ names, Segment name.toList) :
    (Piece.block (.asking names) yesNo).Flush [] := by
  have h : '\n' ∉ (Head.asking names).spell := Head.not_mem_newline_asking hs
  have line {w : List Char} (hw : '\n' ∉ w) :
      ∀ c ∈ (lastLine ('[' :: ((Head.asking names).spell ++ w))).head?, isBlank c = false := by
    rw [lastLine_of_not_mem (by simp [h, hw])]
    simp [isBlank]
  have hyes : ∀ c ∈ (lastLine ('[' :: (Head.asking names).spell)).head?, isBlank c = false := by
    simpa using line (w := []) (by simp)
  have hno := line (w := "|yes".toList) (by simp)
  simpa [Piece.Flush, FlushAlternatives, FlushAll, yesNo, spellAll, Piece.spell, escape] using
    ⟨hyes, hno⟩

end Grammar

theorem Template.read_block {h : Head} {alts : List (List Piece)}
    (hf : (Piece.block h alts).Fits false) (hd : (Piece.block h alts).depth ≤ maxNesting)
    (hl : (Piece.block h alts).Flush []) :
    (read (String.ofList (Piece.block h alts).spell)).faults = [] ∧
    (read (String.ofList (Piece.block h alts).spell)).root.erase = (Piece.block h alts).tree := by
  have hb (src : Source) : ∀ g as, Piece.block g as ∈ [Piece.block h alts] →
      (src.blocks maxNesting).Yields src .full g as := by
    simpa using Source.yields_full hf hd
  have hfit : FitAll false [.block h alts] := ⟨hf, by simp, trivial⟩
  have hp := read_of_yields hfit ⟨hl, trivial⟩ hb
  rw [Yield.full_faultsAll, Yield.alternative, Yield.full_flatMap_nodes] at hp
  simpa [spellAll, treeAll, gathered] using hp

namespace Node

variable {ctx : Context} {n : Node} {names : List String}

theorem result_erase : (n.erase.render ctx).result = (n.render ctx).result := by
  simp [render_eq, erase, Context.evaluate_move, Rendering.ofFragment, Evaluated.move]

theorem faults_erase (h : (n.erase.render ctx).faults = []) : (n.render ctx).faults = [] := by
  simpa [render_eq, erase, Context.evaluate_move, Rendering.ofFragment, Evaluated.move] using h

def asking (segs : List Node) : Node :=
  block .origin (present .origin segs) (arguments .origin [])
    (results .origin [text .origin "yes", text .origin "no"])

theorem tree_asking (names : List String) :
    (Piece.block (.asking names) yesNo).tree = asking (names.map (name .origin)) := by
  simp [Piece.tree, Head.tree, Head.asking, Head.pathTree, Head.segments, yesNo, treeAlternatives,
    treeAll, gathered, asking, Function.comp_def]

theorem segmentNames_map_name (s : Span) (names : List String) :
    segmentNames (names.map (name s)) = names := by
  induction names
  case nil                => rfl
  case cons name names ih => simpa [segmentNames, segment?] using ih

theorem render_asking (ctx : Context) (segs : List Node) :
    ((asking segs).render ctx).faults = [] ∧
    ((asking segs).render ctx).result =
      if ctx.bindings.binds (segmentNames segs) then "yes" else "no" := by
  have hg : (asking segs).Gives ctx _ := .present (List.cons_ne_nil _ _) (Nat.le_refl 2)
  have ho := Context.outcome_of_gives (List.forall_mem_nil _) hg
  obtain ⟨code, he, hown⟩ := Context.exists_reveal ho
  constructor
  case left  =>
    rw [faults_render, Context.faults_evaluate rfl, asking, hown]
    rfl
  case right =>
    have hd := (displays_of_reveal (by simp [Context.evaluate, Context.leaf, Fragment.ofValue]) he)
    cases hb : ctx.bindings.binds (segmentNames segs) <;> rw [hb] at hd
    case true  => exact hd.1.trans (by rw [render_eq]; rfl)
    case false => exact hd.1.trans (by rw [render_eq]; rfl)

end Node

theorem render_asking (ctx : Context) {names : List String} (hn : names ≠ [])
    (hs : ∀ name ∈ names, Segment name.toList) :
    let r := render ctx ("[" ++ Node.dotted names ++ "?|yes|no]")
    r.parseErrors = [] ∧ r.errors = [] ∧
    r.result = if ctx.bindings.binds names then "yes" else "no" := by
  have hf : (Piece.block (.asking names) yesNo).Fits false :=
    ⟨Head.fits_asking hn hs, by simp [yesNo, FitAlternatives, FitAll, Piece.Fits, textMarks]⟩
  have ht : "[" ++ Node.dotted names ++ "?|yes|no]" =
      String.ofList (Piece.block (.asking names) yesNo).spell := by
    rw [← toList_asking, String.ofList_toList]
  have hd : (Piece.block (.asking names) yesNo).depth ≤ maxNesting := by
    simp [Piece.depth, yesNo, depthAlternatives, depthAll, maxNesting]
  obtain ⟨hr, he⟩ := Template.read_block hf hd (flush_asking hs)
  obtain ⟨hfaults, hresult⟩ := Node.render_asking ctx (names.map (.name .origin))
  rw [← Node.tree_asking, ← he] at hfaults hresult
  rw [Node.segmentNames_map_name] at hresult
  rw [ht]
  refine ⟨?_, ?_, ?_⟩
  · simp [render, Template.diagnostics, hr]
  · simp [render, Rendering.diagnostics, Node.faults_erase hfaults]
  · exact Node.result_erase.symm.trans hresult

namespace Bindings

open Json (Leads)

theorem binds_iff {b : Bindings} {path : List String} :
    b.binds path = true ↔ ∃ s, b.lookup path = .ok s := by
  unfold binds
  split <;> simp_all

-- The bindings of a document have a value just where the document has one that is not null, and it
-- is the one of the document. Every number of the document has to have a double.
theorem ofJson_mirrors {asDouble : Json.Number → Option Binary64}
    {members : List (String × Json)} (h : (Json.object members).Distinct)
    (hc : ∀ path n, Leads (.object members) path (.number n) → ∃ x, asDouble n = some x) :
    ∃ b, ofJson asDouble (.object members) = .ok b ∧
      b.size = (members.filter fun m => !m.2.isNull).length ∧
      ∀ path, path ≠ [] →
        let there := ∃ j, Leads (.object members) path j ∧ j ≠ .null
        ((∃ s, b.lookup path = .ok s) ↔ there) ∧
        (∀ j s, Leads (.object members) path j → b.lookup path = .ok s →
          Symbol.Mirrors asDouble j s) ∧
        ((∀ name ∈ path, Segment name.toList) → ∀ emit,
          let r := render ⟨b, emit⟩ ("[" ++ Node.dotted path ++ "?|yes|no]")
          r.parseErrors = [] ∧ r.errors = [] ∧
          (there → r.result = "yes") ∧ (¬there → r.result = "no")) := by
  have hc : Symbol.Converts asDouble (.object members) := hc
  refine ⟨_, ofJson_eq hc, size_children h hc, fun path hp => ?_⟩
  intro there
  have hl : (∃ s, (ofList (Symbol.children asDouble members)).lookup path = .ok s) ↔ there := by
    simp only [there, lookup_children h hc hp]
    constructor
    case mp  =>
      rintro ⟨s, j, hj, hs⟩
      exact ⟨j, hj, (Symbol.exists_value?_iff (hc.of_leads hj)).mp ⟨s, hs⟩⟩
    case mpr =>
      rintro ⟨j, hj, hn⟩
      obtain ⟨s, hs⟩ := (Symbol.exists_value?_iff (hc.of_leads hj)).mpr hn
      exact ⟨s, j, hj, hs⟩
  refine ⟨hl, fun j s hj hs => ?mirrors, fun hs emit => ?asking⟩
  case mirrors =>
    obtain ⟨k, hk, hs⟩ := (lookup_children h hc hp).mp hs
    obtain rfl := h.leads_unique hj hk
    exact Symbol.mirrors_of_value? (h.of_leads hj) (hc.of_leads hj) hs
  case asking =>
    obtain ⟨hp, he, hr⟩ := render_asking ⟨ofList (Symbol.children asDouble members), emit⟩ hp hs
    refine ⟨hp, he, fun ht => ?_, fun ht => ?_⟩
    · rw [hr, if_pos (binds_iff.mpr (hl.mpr ht))]
    · rw [hr, if_neg (mt binds_iff.mp (mt hl.mp ht))]

-- The item behind a null keeps its index, and the null has none.
theorem ofJson_mirrors_nulls :
    let asDouble := Json.Number.asDouble
    let three : Binary64 := ⟨0x4008000000000000⟩
    let members : List (String × Json) :=
      [("p", .object [("q", .array [.null, .number (.int 3)]), ("r", .null)]), ("s", .null)]
    (Json.object members).Distinct ∧
    (∀ path n, Leads (.object members) path (.number n) → ∃ x, asDouble n = some x) ∧
    ∃ b, ofJson asDouble (.object members) = .ok b ∧ b.size = 1 ∧
      b.lookup ["p", "q", "1"] = .ok (.number three) ∧
      (¬∃ s, b.lookup ["p", "q", "0"] = .ok s) ∧
      (render ⟨b, false⟩ ("[" ++ Node.dotted ["p", "q", "1"] ++ "?|yes|no]")).result = "yes" := by
  intro asDouble three members
  have hd : (Json.object members).Distinct := by
    have array : (Json.array [.null, .number (.int 3)]).Distinct :=
      .array (by simpa using ⟨.null, .number⟩)
    have inner :
        (Json.object [("q", .array [.null, .number (.int 3)]), ("r", .null)]).Distinct :=
      .object (by decide) (by simpa using ⟨array, .null⟩)
    exact .object (by decide) (by simpa [members] using ⟨inner, .null⟩)
  have hc (path : List String) (n : Json.Number)
      (_ : Leads (.object members) path (.number n)) : ∃ x, asDouble n = some x := by
    cases n <;> exact ⟨_, rfl⟩
  have one : Json.IsIndex "1" 1 := Json.isIndex_toString 1
  have zero : Json.IsIndex "0" 0 := Json.isIndex_toString 0
  have hp {i : String} {j : Json} (h : Json.Child (.array [.null, .number (.int 3)]) i j) :
      Leads (.object members) ["p", "q", i] j :=
    .cons (.member (.head _)) <| .cons (.member (.head _)) <| .cons h .nil
  have hthree := hp (.item one rfl)
  have hnull := hp (.item zero rfl)
  obtain ⟨b, hb, hsize, h⟩ := ofJson_mirrors hd hc
  obtain ⟨hfound, hmirrors, hasks⟩ := h ["p", "q", "1"] (by simp)
  obtain ⟨s, hs⟩ := hfound.mpr ⟨_, hthree, nofun⟩
  have hs' : s = .number three := by
    cases hmirrors _ s hthree hs
    case number hx =>
      obtain rfl := Option.some.inj hx
      exact congrArg Symbol.number (by decide +kernel)
  refine ⟨hd, hc, b, hb, hsize, hs' ▸ hs, fun hn => ?_, ?_⟩
  · obtain ⟨j, hj, hj'⟩ := (h ["p", "q", "0"] (by simp)).1.mp hn
    exact hj' (hd.leads_unique hj hnull)
  · exact (hasks (by decide) false).2.2.1 ⟨_, hthree, nofun⟩

end Bindings
end Stencil
