import GoEthereum.Core.Types

-- The gas that a message pays before it is executed.

namespace Core

open Common

def txGas : Int :=
  21000

def txGasContractCreation : Int :=
  53000

def txDataNonZeroGas : Int :=
  68

def txDataZeroGas : Int :=
  4

def intrinsicGas (data : Bytes) (contractCreation homestead : Bool) : Int :=
  let igas := if contractCreation && homestead then txGasContractCreation else txGas
  if data.length > 0 then
    let nz : Int := data.countP (· ≠ 0)
    igas + nz * txDataNonZeroGas + (data.length - nz) * txDataZeroGas
  else
    igas

end Core
