import Conveyor.CommandLine.Place
import Conveyor.Main
import Conveyor.Rate.Operand
import Conveyor.Proofs.Bounds
import Conveyor.Proofs.Factory.Calls
import Conveyor.Proofs.Result
import Conveyor.Proofs.Factory.Bounds
import Conveyor.Proofs.Clock
import Conveyor.Proofs.Graph.Postorder
import Conveyor.Proofs.Stock
import Conveyor.Proofs.Conservation
import Conveyor.Proofs.Balancing
import Conveyor.Proofs.Raises
import Conveyor.Proofs.Double.Packing
import Conveyor.Proofs.Double.Arithmetic
import Conveyor.Proofs.Double.Order
import Conveyor.Proofs.Double.Within
import Conveyor.Proofs.Rate
import Conveyor.Proofs.Efficiency.Formula
import Conveyor.Proofs.Efficiency.Plain
import Conveyor.Proofs.Recipe
import Conveyor.Proofs.Recipe.Totals
import Conveyor.Proofs.Rate.Whole
import Conveyor.Proofs.Rate.Shortage
import Conveyor.Proofs.Rate.Raise
import Conveyor.Proofs.Efficiency.Supply
import Conveyor.Proofs.Efficiency.Drift
import Conveyor.Proofs.Efficiency.Range
import Conveyor.Proofs.Efficiency.Balanced
import Conveyor.Proofs.Efficiency.Walk
import Conveyor.Proofs.Efficiency.Solve
import Conveyor.Proofs.Faults
import Conveyor.Proofs.Acyclic
import Conveyor.Proofs.WeakestPre
import Conveyor.Proofs.Factory.WellFormed
import Conveyor.Proofs.Factory.Refusals
import Conveyor.Proofs.Factory.Binding
import Conveyor.Proofs.Origin
import Conveyor.Proofs.Factory.Origin
import Conveyor.Proofs.Efficiency.Cycles
import Conveyor.Proofs.Splitting
import Conveyor.Proofs.Factory.Sustained
import Conveyor.Proofs.Nesting
import Conveyor.Proofs.Order
import Conveyor.Proofs.Exchange
import Conveyor.Proofs.Lag
import Conveyor.Proofs.Assembly
import Conveyor.Proofs.Factory.Upstream
import Conveyor.Proofs.Factory.Pace
import Conveyor.Proofs.Factory.FirstCycle
import Conveyor.Proofs.Factory.Answering
import Conveyor.Proofs.Drawing
import Conveyor.Proofs.Allowed
import Conveyor.Proofs.Counted
import Conveyor.Proofs.Efficiency.Bare
import Conveyor.Proofs.Capacity
import Conveyor.Proofs.Legible
import Conveyor.Proofs.Text
import Conveyor.Proofs.Setting
import Conveyor.Proofs.Setting.List
import Conveyor.Proofs.Factory.Alike
import Conveyor.Proofs.Efficiency.Again
import Conveyor.Proofs.Demo
import Conveyor.Proofs.Demo.Commands
import Conveyor.Proofs.CommandLine.Session
import Conveyor.Proofs.CommandLine.Run
import Conveyor.Proofs.Clock.Passes
import Conveyor.Proofs.Scaling
import Conveyor.Proofs.Factory.Proportion
import Conveyor.Proofs.Efficiency.Sizing
import Conveyor.Proofs.Production
import Conveyor.Proofs.Pulling.Greedy
import Conveyor.Proofs.Dot.Reader
import Conveyor.Proofs.Factory.Diagram
