import LayerGraph.Graph.Edit

/-!
# Reachable graphs

The graphs that come from the empty one by any sequence of changes, whether each change
succeeds or fails, and whatever ids and slots it names.
-/

set_option autoImplicit false

namespace LayerGraph

inductive GraphChange where
  | add (operation : Operation) (name : String)
  | setDescriptor (slot : OutputSlot) (descriptor : Descriptor)
  | connect (source : OutputSlot) (target : InputSlot)
  | disconnect (slot : InputSlot)
  | insert (position : InputSlot) (operation : Operation) (name : String)
      (descriptor : Descriptor)
  | moveAll (source target : OutputSlot)
  | remove (node : NodeId)
  | addRelated (replacement superseded : NodeId)
  deriving DecidableEq

namespace Edit

def after {α : Type} (e : Edit α) (g : Graph) : Graph :=
  match e g with
  | .ok _ next => next
  | .error _ next => next

end Edit

namespace GraphChange

def after : GraphChange → Graph → Graph
  | .add operation name => (Edit.add operation name).after
  | .setDescriptor slot descriptor => (Edit.setDescriptor slot descriptor).after
  | .connect source target => (Edit.connect source target).after
  | .disconnect slot => (Edit.disconnect slot).after
  | .insert position operation name descriptor =>
    (Edit.insert position operation name descriptor).after
  | .moveAll source target => (Edit.moveAll source target).after
  | .remove node => (Edit.remove node).after
  | .addRelated replacement superseded => (Edit.addRelated replacement superseded).after

end GraphChange

inductive Graph.Reachable : Graph → Prop where
  | empty : Reachable Graph.empty
  | change {g : Graph} (c : GraphChange) (h : Reachable g) : Reachable (c.after g)

end LayerGraph
