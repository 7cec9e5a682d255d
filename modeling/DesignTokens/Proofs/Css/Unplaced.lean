import DesignTokens.Css.Tree

/-!
Reading with positions and without them. The machine that reads a text takes its decisions from the
components alone, so the two readings go through the same places, and the nodes of one are those of
the other without their spans.
-/

namespace DesignTokens.Css

theorem withoutSpans_eq (nodes : List Node) : withoutSpans nodes = nodes.map Node.withoutSpans := by
  induction nodes with
  | nil => rfl
  | cons node rest ih => rw [withoutSpans, ih, List.map_cons]

theorem blockWithoutSpans_eq (block : Option Node) :
    blockWithoutSpans block = block.map Node.withoutSpans := by
  cases block <;> rfl

theorem Node.withoutSpans_span (node : Node) : node.withoutSpans.span = none := by
  cases node <;> rfl

theorem Node.unplaced_withoutSpans (node : Node) : node.withoutSpans.unplaced = node.withoutSpans := by
  cases node <;> rfl

mutual

theorem Node.walk_withoutSpans (node : Node) :
    node.withoutSpans.walk = node.walk.map Node.withoutSpans := by
  match node with
  | .leaf leaf span => rfl
  | .function name children span =>
    simp [Node.withoutSpans, Node.walk, walk_withoutSpans children]
  | .block bracket children span =>
    simp [Node.withoutSpans, Node.walk, walk_withoutSpans children]
  | .atRule name prelude none span =>
    simp [Node.withoutSpans, Node.walk, walk_withoutSpans prelude, blockWithoutSpans, walkBlock]
  | .atRule name prelude (some block) span =>
    simp [Node.withoutSpans, Node.walk, walk_withoutSpans prelude, blockWithoutSpans, walkBlock,
      Node.walk_withoutSpans block]

theorem walk_withoutSpans (nodes : List Node) :
    walk (withoutSpans nodes) = (walk nodes).map Node.withoutSpans := by
  match nodes with
  | [] => rfl
  | node :: rest => simp [withoutSpans, walk, Node.walk_withoutSpans node, walk_withoutSpans rest]

end

def Reading.withoutSpans (reading : Reading) : Reading :=
  ⟨reading.component, reading.node.map Node.withoutSpans⟩

def Place.withoutSpans : Place → Place
  | .start => .start
  | .inside => .inside
  | .named => .named
  | .value first text => .value first text
  | .prelude name first stop nodes => .prelude name first stop (nodes.map Node.withoutSpans)

theorem map_unplaced_withoutSpans (nodes : List Node) :
    (nodes.map Node.withoutSpans).map Node.unplaced = nodes.map Node.withoutSpans := by
  rw [List.map_map]
  exact List.map_congr_left fun node _ => node.unplaced_withoutSpans

theorem toList_map_withoutSpans (node : Option Node) :
    (node.map Node.withoutSpans).toList = node.toList.map Node.withoutSpans := by
  cases node <;> rfl

theorem afterOrdinary_withoutSpans (head : Token) :
    (Place.afterOrdinary head).withoutSpans = Place.afterOrdinary head := by
  unfold Place.afterOrdinary
  split <;> rfl

structure StepsAlike (placed unplaced : List Node × Place) : Prop where
  nodes : unplaced.1.map Node.unplaced = placed.1.map Node.withoutSpans
  place : unplaced.2 = placed.2.withoutSpans

theorem ordinary_unplaced (mode : Mode) (atStart : Bool) (reading : Reading) :
    StepsAlike (ordinary mode atStart reading) (ordinary mode atStart reading.withoutSpans) := by
  have nodes : reading.withoutSpans.node.toList.map Node.unplaced =
      reading.node.toList.map Node.withoutSpans := by
    rw [Reading.withoutSpans, toList_map_withoutSpans, map_unplaced_withoutSpans]
  unfold ordinary
  simp only [show reading.withoutSpans.component = reading.component from rfl]
  split
  · exact ⟨rfl, rfl⟩
  · split
    · exact ⟨nodes, rfl⟩
    · exact ⟨nodes, rfl⟩
  · exact ⟨nodes, (afterOrdinary_withoutSpans _).symm⟩

theorem step_unplaced (mode : Mode) (place : Place) (reading : Reading) :
    StepsAlike (step mode place reading) (step mode place.withoutSpans reading.withoutSpans) := by
  have same : reading.withoutSpans.component = reading.component := rfl
  have other := ordinary_unplaced mode false reading
  cases place with
  | start =>
    simp only [step, Place.withoutSpans, same]
    split
    · exact ⟨rfl, rfl⟩
    · exact ordinary_unplaced mode true reading
  | inside =>
    simp only [step, Place.withoutSpans, same]
    split
    · exact ⟨rfl, rfl⟩
    · exact other
  | named =>
    simp only [step, Place.withoutSpans, same]
    split
    · exact ⟨rfl, rfl⟩
    · split
      · exact ⟨rfl, rfl⟩
      · exact other
  | value first text =>
    simp only [step, Place.withoutSpans, same]
    split
    · refine ⟨?_, other.place⟩
      rw [List.map_cons, List.map_cons, other.nodes]
      rfl
    · exact ⟨rfl, rfl⟩
  | prelude name first stop nodes =>
    simp only [step, Place.withoutSpans, same]
    split
    · exact ⟨rfl, rfl⟩
    · split
      · refine ⟨?_, rfl⟩
        simp [Node.unplaced, Node.withoutSpans, withoutSpans_eq, blockWithoutSpans]
      · split
        · refine ⟨?_, rfl⟩
          simp [Node.unplaced, Node.withoutSpans, withoutSpans_eq, blockWithoutSpans_eq,
            Reading.withoutSpans]
        · refine ⟨rfl, ?_⟩
          simp [Reading.withoutSpans, Place.withoutSpans, toList_map_withoutSpans]

theorem finish_unplaced (place : Place) :
    place.withoutSpans.finish.map Node.unplaced = place.finish.map Node.withoutSpans := by
  cases place with
  | start => rfl
  | inside => rfl
  | named => rfl
  | value first text => rfl
  | prelude name first stop nodes =>
    simp [Place.withoutSpans, Place.finish, Node.unplaced, Node.withoutSpans, withoutSpans_eq,
      blockWithoutSpans]

theorem assembleUnplaced_eq (mode : Mode) (place : Place) (list : List Reading) :
    assembleUnplaced mode place.withoutSpans (list.map Reading.withoutSpans) =
      withoutSpans (assemble mode place list) := by
  rw [withoutSpans_eq]
  induction list generalizing place with
  | nil => exact finish_unplaced place
  | cons reading rest ih =>
    obtain ⟨nodes, following⟩ := step_unplaced mode place reading
    simp only [List.map_cons, assembleUnplaced, assemble, List.map_append]
    rw [nodes, following, ih]

theorem enclose_unplaced (opener : Token) (children : List Node) (span : Text.Span) :
    (enclose opener (withoutSpans children) span).unplaced =
      (enclose opener children span).withoutSpans := by
  unfold enclose
  split <;> rfl

mutual

theorem Component.unplacedNode_eq (component : Component) :
    component.unplacedNode = component.node.map Node.withoutSpans := by
  match component with
  | .token lexeme =>
    rw [Component.unplacedNode, Component.node]
    cases lexeme.leaf <;> rfl
  | .group opener contents closer =>
    have inside := assembleUnplaced_eq (contentMode opener.token) .start (readings contents)
    rw [← unplacedReadings_eq contents] at inside
    rw [Component.unplacedNode, Component.node, Option.map_some, ← enclose_unplaced, ← inside]
    rfl

theorem unplacedReadings_eq (components : List Component) :
    unplacedReadings components = (readings components).map Reading.withoutSpans := by
  match components with
  | [] => rfl
  | component :: rest =>
    rw [unplacedReadings, readings, List.map_cons, unplacedReadings_eq rest,
      Component.unplacedNode_eq component]
    rfl

end

/-- A text is read as the same tree whether positions are recorded or not, except for the spans. -/
theorem parseUnplaced_eq (mode : Mode) (text : List Char) :
    parseUnplaced mode text = withoutSpans (parse mode text) := by
  rw [parseUnplaced, parse, unplacedReadings_eq]
  exact assembleUnplaced_eq mode .start (readings (components text))

theorem walk_keep_omitted (mode : Mode) (text : List Char) :
    walk (Positions.omitted.keep mode text) = (walk (parse mode text)).map Node.withoutSpans := by
  rw [Positions.keep, parseUnplaced_eq, walk_withoutSpans]

end DesignTokens.Css
