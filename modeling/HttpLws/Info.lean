import HttpLws.Libwebsockets

/-!
# Reading a body

`ULwsInfos` is handed out for every chunk of a request body. `GetBody` turns the
chunk's bytes into a string of its own.
-/

namespace HttpLws

/-- `ULwsInfos` -/
structure ULwsInfos where
  /-- `Params`, inherited from `ULwsObject`. -/
  params : FLwsParams

/-- A new info object with the callback's arguments. -/
def ULwsInfos.newObject (params : FLwsParams) : ULwsInfos := ⟨params⟩

/-- `ULwsInfos::GetBody`: the return value and `Out_Body` after the call. -/
def ULwsInfos.getBody (conv : AnsiConversion) (self : ULwsInfos) (outBody : FString) :
    Option (Bool × FString) :=
  if self.params.reason ≠ .lwsCallbackHttpBody then some (false, outBody)
  else match self.params.inData with
    | none => some (false, outBody)
    | some body =>
        (FString.appendChars conv [] body (toInt32 self.params.len)).map fun bodyString =>
          (true, bodyString)

end HttpLws
