import BranchFusion.Proofs.Pipeline.Registration

/-!
# The canonical form of a pipeline

The text of a pipeline can be read, and gives the pipeline back, whatever the registry holds and
however deep the groups are nested. What a pipeline has to satisfy for this is what every pipeline
satisfies that was read: its passes are known, its counts are in bounds, and no group is empty
(`BranchFusion.Pipeline.Node.Readable`). So the text of a pipeline that was read is a canonical form
of the text that it was read from, without gaps and without leading zeros in counts
(`BranchFusion.Pipeline.parse_text_of_readable`).

The proof needs no tokens: texts are put together just as pipelines are, with groups
(`BranchFusion.Pipeline.parse_timesText`, `BranchFusion.Pipeline.parse_fixpointText`) and commas
(`BranchFusion.Pipeline.parse_comma`).
-/

namespace BranchFusion.Pipeline

variable {reg : Registry} {node : Node} {nodes : List Node} {ts : List Token}

/-- **A part of a pipeline that can be written down and read again.** -/
inductive Node.Readable (reg : Registry) : Node → Prop
  | pass {w : String} (hw : IsPassName reg w) : Readable reg (.pass w)
  | times {n : Nat} {body : List Node} (hn : 1 ≤ n) (hmax : n ≤ 2 ^ 63 - 1) (hne : body ≠ [])
    (hbody : ∀ node ∈ body, Readable reg node) : Readable reg (.times n body)
  | fixpoint {body : List Node} (hne : body ≠ []) (hbody : ∀ node ∈ body, Readable reg node) :
    Readable reg (.fixpoint body)

/-! ### What is written can be read -/

/-- The text of a list can be read if the texts of its parts can. -/
theorem parse_text : ∀ {nodes : List Node}, nodes ≠ [] →
    (∀ node ∈ nodes, parse reg node.text = .ok [node]) → parse reg (text nodes) = .ok nodes
  | [], hne, _ => absurd rfl hne
  | [node], _, h => h node List.mem_cons_self
  | node :: next :: nodes, _, h => by
    obtain ⟨hnode, hnodes⟩ := List.forall_mem_cons.mp h
    have hrest := parse_text (List.cons_ne_nil next nodes) hnodes
    rw [text, Text.Bytes.ofString_append, Text.Bytes.ofString_append]
    exact parse_comma hnode hrest

theorem Node.Readable.parse (hreg : reg.WellNamed) (h : node.Readable reg) :
    Pipeline.parse reg node.text = .ok [node] := by
  induction h with
  | @pass w hw =>
    have hname : Registry.isName w := by
      rcases hw.known with ⟨p, hp⟩ | rfl
      · exact (hreg w p hp).1
      · rfl
    exact (Registry.denotes_of_isPassName hname hw).parse
  | @times n body hn hmax hne _ ih =>
    have hbody := parse_timesText (parse_text hne ih) hn hmax
    simpa only [timesText, Node.text, Text.Bytes.ofString_append] using hbody
  | @fixpoint body hne _ ih =>
    have hbody := parse_fixpointText (parse_text hne ih)
    simpa only [fixpointText, Node.text, Text.Bytes.ofString_append] using hbody

/-! ### What was read can be written -/

mutual

theorem Item.readable : ∀ {node : Node} {ts : List Token}, Item reg node ts → node.Readable reg
  | _, _, .pass hw => .pass hw
  | _, _, .times hw hitems =>
    .times hw.positive hw.bounded hitems.readable.1 hitems.readable.2
  | _, _, .fixpoint hitems => .fixpoint hitems.readable.1 hitems.readable.2

theorem Items.readable : ∀ {nodes : List Node} {ts : List Token}, Items reg nodes ts →
    nodes ≠ [] ∧ ∀ node ∈ nodes, node.Readable reg
  | _, _, .one hitem => ⟨List.cons_ne_nil _ _, by simpa using hitem.readable⟩
  | _, _, .more hitem hitems =>
    ⟨List.cons_ne_nil _ _, List.forall_mem_cons.mpr ⟨hitem.readable, hitems.readable.2⟩⟩

end

/-- **Reading undoes writing.** Whatever passes were registered: every pipeline whose parts can be
read is read from its text. In particular the text of a pipeline that was read is canonical: it can
be read, and the pipeline that is read from it has the same text. -/
theorem parse_text_of_readable (calls : List (String × Pass)) :
    (∀ nodes : List Node, nodes ≠ [] →
      (∀ node ∈ nodes, node.Readable (Registry.empty.afterCalls calls)) →
        parse (Registry.empty.afterCalls calls) (text nodes) = .ok nodes) ∧
      ∀ src nodes, parse (Registry.empty.afterCalls calls) src = .ok nodes →
        ∃ nodes', parse (Registry.empty.afterCalls calls) (text nodes) = .ok nodes' ∧
          text nodes' = text nodes := by
  have hreg := Registry.wellNamed_empty.afterCalls calls
  refine ⟨fun nodes hne h => parse_text hne fun node hnode => (h node hnode).parse hreg,
    fun src nodes hsrc => ?_⟩
  obtain ⟨ts, -, hts⟩ := parse_eq_ok_iff.mp hsrc
  obtain ⟨hne, h⟩ := hts.readable
  exact ⟨nodes, parse_text hne fun node hnode => (h node hnode).parse hreg, rfl⟩

/-- Calls that register names of digits and of dashes. -/
def terseCalls : List (String × Pass) := [("7", .deadCode), ("--", .blockMerge)]

/-- A pipeline of such names, in groups that look like them. -/
def tersePipeline : List Node := [.times 7 [.pass "7", .fixpoint [.pass "--", .pass "verify"]]]

theorem readable_tersePipeline :
    ∀ node ∈ tersePipeline, node.Readable (Registry.empty.afterCalls terseCalls) := by
  have hdigit : Node.Readable (Registry.empty.afterCalls terseCalls) (.pass "7") :=
    .pass ⟨.inl ⟨.deadCode, by decide +kernel⟩, by decide, by decide⟩
  have hdashes : Node.Readable (Registry.empty.afterCalls terseCalls) (.pass "--") :=
    .pass ⟨.inl ⟨.blockMerge, by decide +kernel⟩, by decide, by decide⟩
  have hverify : Node.Readable (Registry.empty.afterCalls terseCalls) (.pass "verify") :=
    .pass ⟨.inr rfl, by decide, by decide⟩
  have hfixpoint : Node.Readable (Registry.empty.afterCalls terseCalls)
      (.fixpoint [.pass "--", .pass "verify"]) :=
    .fixpoint (List.cons_ne_nil _ _) (by simp [hdashes, hverify])
  simp only [tersePipeline, List.forall_mem_singleton]
  exact .times (by decide) (by decide) (List.cons_ne_nil _ _) (by simp [hdigit, hfixpoint])

/-- It is read from its text, and its text is canonical. -/
theorem tersePipeline_parse_text :
    parse (Registry.empty.afterCalls terseCalls) (text tersePipeline) = .ok tersePipeline ∧
      ∃ nodes, parse (Registry.empty.afterCalls terseCalls) (text tersePipeline) = .ok nodes ∧
        text nodes = text tersePipeline := by
  obtain ⟨hundoes, hcanonical⟩ := parse_text_of_readable terseCalls
  have hparse := hundoes tersePipeline (List.cons_ne_nil _ _) readable_tersePipeline
  exact ⟨hparse, hcanonical _ _ hparse⟩

end BranchFusion.Pipeline
