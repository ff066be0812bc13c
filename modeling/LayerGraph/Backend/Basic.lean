import LayerGraph.Workload.Registry

/-!
# Backends

A backend has an id and offers constructors, which it registers under that id. The known
backends stand under names of their own, which need not be their ids.
-/

set_option autoImplicit false

namespace LayerGraph

structure Offer where
  kind : OperationKind
  dataType : DataType
  constructor : WorkloadConstructor

/-- A backend, and the message it logs once its workloads are registered, if any. -/
structure Backend where
  id : BackendId
  offers : List Offer
  notice : Option String

namespace Registry

def registerOffer (backend : BackendId) (state : Registry × Log) (offer : Offer) :
    Registry × Log :=
  let key : WorkloadKey := ⟨offer.kind, backend, offer.dataType⟩
  (state.1.register key offer.constructor, state.2 ++ state.1.registerLog key)

end Registry

namespace Backend

def noticeLog (b : Backend) (r : Registry) : Log :=
  match b.notice with
  | none => []
  | some message =>
    [{ level := .debug, message, fields := [("backend", b.id), ("workloads", toString r.size)] }]

def fill (b : Backend) : Registry × Log :=
  let (registry, log) := b.offers.foldl (Registry.registerOffer b.id) (Table.empty, [])
  (registry, log ++ b.noticeLog registry)

def registry (b : Backend) : Registry := b.fill.1

end Backend

abbrev Backends := Table String Backend

namespace Backends

def registerLog (backends : Backends) (name : String) : Log :=
  if backends.contains name then
    [{ level := .debug, message := "replaced previously registered backend",
       fields := [("backend", name)] }]
  else []

def fillNamed (backends : Backends) (name : String) : Except WorkloadError (Registry × Log) :=
  match backends.find? name with
  | none => .error (.unknownBackend name)
  | some backend => .ok backend.fill

end Backends

end LayerGraph
