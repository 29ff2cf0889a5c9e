import P2Pearl.Data.Struct

/-!
`chain/node_rpc.py`: the JSON-RPC client of a local pearld.

* `NodeRpc.call`: `_call`, on what the HTTP request comes to.
* `NodeRpc.submitBlock`: `submit_block`, which returns the reason of a refused block.
-/

namespace P2Pearl

/-- The body of a JSON-RPC reply: its error, where truthy, and its result, `null` as `none`. -/
structure RpcBody where
  error : Option String
  result : Option String

/-- What the HTTP request of a call comes to. -/
inductive HttpReply where
  | body (body : RpcBody)
  /-- An HTTP error status, with the body where it is JSON. -/
  | httpError (code : ℕ) (body : Option RpcBody)
  | unreachable (reason : String)
  /-- Any other exception of the request, or a body that is not JSON. -/
  | raised

/-- `NodeRPC`, with the address of its node. -/
structure NodeRpc where
  url : String

namespace NodeRpc

/-- The end of `_call`: the error of a reply is raised, its result returned. -/
def resultOf (method : String) (body : RpcBody) : Except PyError (Option String) :=
  match body.error with
  | some error => .error (.nodeRPCError (method ++ ": " ++ error))
  | none => .ok body.result

/-- `_call`. -/
def call (node : NodeRpc) (method : String) : HttpReply → Except PyError (Option String)
  | .body body => resultOf method body
  | .httpError _ (some body) => resultOf method body
  | .httpError code none => .error (.nodeRPCError (method ++ ": HTTP " ++ toString code))
  | .unreachable reason =>
      .error (.nodeRPCError (method ++ ": cannot reach node at " ++ node.url ++ ": " ++ reason))
  | .raised => .error .external

/-- `submit_block`. -/
def submitBlock (node : NodeRpc) (reply : HttpReply) : Except PyError (Option String) :=
  node.call "submitblock" reply

end NodeRpc

end P2Pearl
